/-
  Subject:   WHERE THE PULLED BLOCKS END UP.

  A decode rank pulls source by source, and from each source the first blocks of its list. Position
  `i` of the rank's local blocks then holds some block of the prompt, not always the one that its
  place in the block table stands for.

  Throughout `k` is the number of decode ranks that share the blocks, `q * k` that of prefill ranks,
  the first `cv * k` of `n` blocks are cached, and positions below `full` of the table are
  registered.
-/
import VllmDual.Pull.SplitMetadata

namespace VllmDual.Pull

open RoundRobin List Nat

/-- The external blocks of part `x`, in the order of the pulls. -/
def order (q k x c n : Nat) : List Nat :=
  (pullRanks q k x ((n - 1) % (q * k))).flatMap fun s => hand (q * k) c n (x + s * k)

/-- The block that a source of `r` sources gives for block `j`: its list is read from the front. -/
def content (r c j : Nat) : Nat := j % r + (j / r - share r c (j % r)) * r

/-- The registered positions hold the blocks of their places. -/
def InPlace (q k cv n full : Nat) : Prop :=
  ∀ x < k, ∀ i, cv + i < full → ((order q k x (cv * k) n).map (content (q * k) (cv * k)))[i]?
    = some (x + (cv + i) * k)

section

variable {q k x s c cv n f l : Nat}

theorem pairwise_pullRanks (hx : x < k) (q l : Nat) :
    (pullRanks q k x l).Pairwise fun a b => x + a * k ≠ l ∧ (x + b * k = l ∨ a < b) := by
  unfold pullRanks
  split
  · next ho =>
    have hl : x + l / k * k = l := by rw [← ho, mod_add_div']
    have hne : ∀ a ∈ (range q).eraseIdx (l / k), x + a * k ≠ l := by
      intro a ha heq
      obtain ⟨i, hi, hne, hg⟩ := mem_eraseIdx_iff_getElem.mp ha
      rw [getElem_range] at hg
      exact hne (by rw [hg, ← heq, add_mul_div hx])
    refine pairwise_append.mpr ⟨?_, pairwise_singleton .., fun a ha b hb => ?_⟩
    · exact (pairwise_lt_range.sublist (eraseIdx_sublist ..)).imp_of_mem
        fun ha _ hab => ⟨hne _ ha, .inr hab⟩
    · rw [mem_singleton.mp hb]
      exact ⟨hne a ha, .inl hl⟩
  · next ho =>
    refine pairwise_lt_range.imp fun {a b} hab => ⟨fun heq => ho ?_, .inr hab⟩
    rw [← heq, add_mul_mod hx]

theorem perm_order (hq : 0 < q) (hx : x < k) (c n : Nat) : (order q k x c n).Perm (hand k c n x) :=
  ((perm_pullRanks (zero_lt_of_lt hx) (mod_lt _ (Nat.mul_pos hq (zero_lt_of_lt hx)))
    _).flatMap_right _).trans (perm_flatMap_hand hq hx)

/-- **No block out of turn**: if no source has two blocks, and only the last block may be beyond the
    first round. -/
theorem order_eq_hand (hq : 0 < q) (hx : x < k) (h : n ≤ q * k ∨ n = q * k + 1 ∧ 0 < c) :
    order q k x c n = hand k c n x := by
  refine eq_of_increasing ?_ (hand_sorted ..) fun j => (perm_order hq hx c n).mem_iff
  -- a block that is not the last one is its source's number
  have hso : ∀ s j, j ∈ hand (q * k) c n (x + s * k) → x + s * k ≠ (n - 1) % (q * k) →
      j = x + s * k := by
    intro s j hj hs
    have hj := mem_hand.mp hj
    have hne : j ≠ n - 1 := fun heq => hs (by rw [← heq, hj.2.2])
    rw [← hj.2.2, mod_eq_of_lt (by omega)]
  have hl : ∀ s j, j ∈ hand (q * k) c n (x + s * k) → x + s * k = (n - 1) % (q * k) →
      j = n - 1 := by
    intro s j hj hs
    have hj := mem_hand.mp hj
    rw [hs] at hj
    rcases h with hn | ⟨rfl, hc⟩
    · rw [mod_eq_of_lt (by omega), mod_eq_of_lt (by omega)] at hj
      exact hj.2.2
    · rw [Nat.add_sub_cancel, mod_self] at hj
      have hle : q * k ≤ j := le_of_dvd (by omega) (dvd_of_mod_eq_zero hj.2.2)
      omega
  refine pairwise_flatMap.mpr ⟨fun s _ => hand_sorted .., (pairwise_pullRanks hx _ _).imp ?_⟩
  intro a b ⟨ha, hb⟩ i hi j hj
  have hia := hso a i hi ha
  by_cases hbl : x + b * k = (n - 1) % (q * k)
  · have hne : i ≠ n - 1 := fun heq => ha (by rw [← (mem_hand.mp hi).2.2, heq])
    have := (mem_hand.mp hi).2.1
    rw [hl b j hj hbl]
    omega
  · have hm : a * k < b * k :=
      Nat.mul_lt_mul_of_pos_right (hb.resolve_left hbl) (zero_lt_of_lt hx)
    rw [hia, hso b j hj hbl]
    omega

theorem order_one (hx : x < k) : order 1 k x c n = hand k c n x := by
  have hl : (n - 1) % (1 * k) < 1 * k := mod_lt _ (by omega)
  have hr : pullRanks 1 k x ((n - 1) % (1 * k)) = [0] :=
    perm_singleton.mp (perm_pullRanks (zero_lt_of_lt hx) hl _)
  rw [order, hr]
  simp

theorem content_hand {r p : Nat} (hp : p < r) :
    (hand r c n p).map (content r c) = (range (share r n p - share r c p)).map fun i =>
      p + i * r := by
  rw [hand_eq_map hp, map_map]
  refine map_congr_left fun i _ => ?_
  rw [Function.comp_apply, content, add_mul_mod hp, add_mul_div hp, Nat.add_sub_cancel_left]

theorem content_of_lt {r j : Nat} (hj : j < r) : content r c j = j := by
  rw [content, mod_eq_of_lt hj, div_eq_of_lt hj, Nat.zero_sub, zero_mul, add_zero]

theorem content_zero (r j : Nat) : content r 0 j = j := by
  rw [content, share_zero, Nat.sub_zero, mod_add_div']

theorem inPlace_of_hand (hf : f * k ≤ n)
    (ho : ∀ x < k, order q k x (cv * k) n = hand k (cv * k) n x)
    (hr : ∀ x < k, ∀ v, v < f → content (q * k) (cv * k) (x + v * k) = x + v * k) :
    InPlace q k cv n f := by
  intro x hx i hi
  have hlt : i < share k n x - cv := by
    have hm : (cv + i + 1) * k ≤ f * k := Nat.mul_le_mul_right _ hi
    rw [add_mul, one_mul] at hm
    have := (lt_share_iff hx (n := n) (i := cv + i)).mpr (by omega)
    omega
  rw [ho x hx, hand_eq_map hx, share_mul (zero_lt_of_lt hx), map_map, getElem?_map,
    getElem?_range hlt, Option.map_some, Function.comp_apply, hr x hx _ hi]

theorem map_content_order (hk : 0 < k) (hq : 0 < q) (c n : Nat) :
    (order q k 0 c n).map (content (q * k) c)
      = (pullRanks q k 0 ((n - 1) % (q * k))).flatMap fun s =>
        (range (share (q * k) n (s * k) - share (q * k) c (s * k))).map fun i =>
          s * k + i * (q * k) := by
  have hl : (n - 1) % (q * k) < q * k := mod_lt _ (Nat.mul_pos hq hk)
  rw [order, map_flatMap]
  refine flatMap_congr fun s hs => ?_
  have hs := mem_range.mp ((perm_pullRanks hk hl _).mem_iff.mp hs)
  rw [zero_add, content_hand (by simpa using place_lt hk hs)]

/-- **The first block in place**: the first source that part 0 reads is the one with block `c`, the
    sources before it have nothing to give. -/
theorem first_source (hk : 0 < k) (hq : 0 < q)
    (h : ((order q k 0 (cv * k) n).map (content (q * k) (cv * k)))[0]? = some (cv * k)) :
    cv < q ∧ ∃ l₁ l₂, pullRanks q k 0 ((n - 1) % (q * k)) = l₁ ++ cv :: l₂ ∧
      ∀ s ∈ l₁, share (q * k) n (s * k) ≤ share (q * k) (cv * k) (s * k) := by
  have hl : (n - 1) % (q * k) < q * k := mod_lt _ (Nat.mul_pos hq hk)
  rw [map_content_order hk hq, ← head?_eq_getElem?, head?_flatMap, findSome?_eq_some_iff] at h
  obtain ⟨l₁, s, l₂, hsp, hs, hn⟩ := h
  have hscv : s = cv := by
    rw [head?_map, head?_range] at hs
    split at hs
    · cases hs
    · rw [Option.map_some, zero_mul, add_zero, Option.some_inj] at hs
      exact eq_of_mul_eq_mul_right hk hs
  subst hscv
  refine ⟨?_, l₁, l₂, hsp, fun t ht => ?_⟩
  · refine mem_range.mp ((perm_pullRanks hk hl 0).mem_iff.mp ?_)
    rw [hsp]
    simp
  · have := hn t ht
    simp at this
    omega

theorem share_zero_of_lt {r m : Nat} (hm : 0 < m) (hlt : m < r) : share r m 0 = 1 := by
  rw [share, div_eq_of_lt hlt, mod_eq_of_lt hlt, if_pos hm]

theorem share_first (hk : 0 < k) (hcv : cv < q) : share (q * k) (cv * k) (cv * k) = 0 := by
  have hlt : cv * k < q * k := Nat.mul_lt_mul_of_pos_right hcv hk
  rw [share, div_eq_of_lt hlt, mod_eq_of_lt hlt, if_neg (lt_irrefl _)]

theorem one_source_of_second (hk : 0 < k) (hq : 0 < q) (hfu : n ≤ (f + 1) * k) (hr : cv < f)
    (hp : InPlace q k cv n f) (hse : q * k + cv * k < n) : q = 1 := by
  have hf := hp 0 hk 0 hr
  rw [zero_add, add_zero] at hf
  obtain ⟨hcv, l₁, l₂, hsp, hn⟩ := first_source hk hq hf
  by_contra hne
  have ht : cv + 1 < f := by
    have hm : (2 + cv) * k < (f + 1) * k := by
      refine lt_of_le_of_lt ?_ (hse.trans_le hfu)
      rw [← add_mul]
      exact Nat.mul_le_mul_right _ (by omega)
    have := Nat.lt_of_mul_lt_mul_right hm
    omega
  have hl : 1 < share (q * k) n (cv * k) - share (q * k) (cv * k) (cv * k) := by
    rw [share_first hk hcv, Nat.sub_zero, lt_share_iff (Nat.mul_lt_mul_of_pos_right hcv hk)]
    omega
  have hnil : l₁.flatMap (fun s =>
      (range (share (q * k) n (s * k) - share (q * k) (cv * k) (s * k))).map
        fun i => s * k + i * (q * k)) = [] := by
    refine flatMap_eq_nil_iff.mpr fun s hs => ?_
    rw [Nat.sub_eq_zero_of_le (hn s hs)]
    rfl
  have hnx := hp 0 hk 1 ht
  rw [map_content_order hk hq, hsp, flatMap_append, hnil, nil_append, flatMap_cons,
    getElem?_append_left (by simpa using hl), getElem?_map, getElem?_range hl,
    Option.map_some, Option.some_inj, zero_add, one_mul, add_mul, one_mul] at hnx
  exact hne (eq_of_mul_eq_mul_right hk (by omega))

/-- **A source with a cached block** is out of place unless it has the last block: with one in part
    0 there is one block beyond the first round. -/
theorem last_of_cached (hk : 0 < k) (hq : 0 < q) (hreg : cv < f) (hpl : InPlace q k cv n f)
    (hpos : 0 < cv) (hr : q * k < n) : (n - 1) % (q * k) = 0 := by
  have hf := hpl 0 hk 0 hreg
  rw [zero_add, add_zero] at hf
  obtain ⟨hcv, l₁, l₂, hs, hn⟩ := first_source hk hq hf
  have hR : 0 < q * k := Nat.mul_pos hq hk
  have hl : (n - 1) % (q * k) < q * k := mod_lt _ hR
  have hlt : cv * k < q * k := Nat.mul_lt_mul_of_pos_right hcv hk
  have hm : 0 ∈ l₁ ++ cv :: l₂ :=
    hs ▸ (perm_pullRanks hk hl 0).mem_iff.mpr (mem_range.mpr hq)
  have hso : share (q * k) (cv * k) (0 * k) < share (q * k) n (0 * k) := by
    rw [zero_mul, share_zero_of_lt (Nat.mul_pos hpos hk) hlt, lt_share_iff hR]
    omega
  have ha : 0 ∈ l₂ := by
    rcases mem_append.mp hm with h | h
    · exact absurd (hn 0 h) (not_le.mpr hso)
    · exact (mem_cons.mp h).resolve_left hpos.ne
  have hp := pairwise_pullRanks hk q ((n - 1) % (q * k))
  rw [hs] at hp
  have := (pairwise_append.mp hp).2.1
  rcases ((pairwise_cons.mp this).1 0 ha).2 with heq | hneg
  · rw [← heq, zero_mul, zero_add]
  · exact absurd hneg (Nat.not_lt_zero _)

theorem inPlace_iff (hk : 0 < k) (hq : 0 < q) (hf : f * k ≤ n) (hc : n ≤ (f + 1) * k) :
    InPlace q k cv n f ↔ f ≤ cv ∨ (q = 1 ∧ cv = 0) ∨ n ≤ q * k ∨
      (n = q * k + 1 ∧ 0 < cv ∧ cv < q ∧ f ≤ q) := by
  constructor
  · intro hp
    by_cases hreg : f ≤ cv
    · exact .inl hreg
    have hreg := not_le.mp hreg
    by_cases hr : n ≤ q * k
    · exact .inr (.inr (.inl hr))
    have hr := not_le.mp hr
    have hfi := hp 0 hk 0 hreg
    rw [zero_add, add_zero] at hfi
    have hcv := (first_source hk hq hfi).1
    have hlt : cv * k < q * k := Nat.mul_lt_mul_of_pos_right hcv hk
    rcases Nat.eq_zero_or_pos cv with hz | hpos
    · refine .inr (.inl ⟨one_source_of_second hk hq hc hreg hp ?_, hz⟩)
      rw [hz, zero_mul]
      exact hr
    · have hs : n ≤ q * k + cv * k := by
        by_contra hgt
        have := one_source_of_second hk hq hc hreg hp (not_le.mp hgt)
        omega
      have hn : n = q * k + 1 := by
        have hm := last_of_cached hk hq hreg hp hpos hr
        rw [mod_eq_sub_mod (by omega), mod_eq_of_lt (by omega)] at hm
        omega
      refine .inr (.inr (.inr ⟨hn, hpos, hcv, not_lt.mp fun hgt => ?_⟩))
      -- the last block has the place of block `q * k`, and block 0 is read for it
      have hl : q - cv < share k n 0 - cv := by
        have := (lt_share_iff hk (n := n) (i := q)).mpr (by omega)
        omega
      have hre : content (q * k) (cv * k) (q * k) = 0 := by
        rw [content, mod_self, Nat.div_self (by omega), share_zero_of_lt (Nat.mul_pos hpos hk) hlt,
          Nat.sub_self, zero_mul, zero_add]
      have hat := hp 0 hk (q - cv) (by omega)
      rw [order_eq_hand hq hk (.inr ⟨hn, Nat.mul_pos hpos hk⟩), hand_eq_map hk,
        share_mul hk, map_map,
        getElem?_map, getElem?_range hl, Option.map_some, Function.comp_apply,
        show cv + (q - cv) = q by omega, zero_add, hre, Option.some_inj] at hat
      omega
  · rintro (hreg | ⟨rfl, rfl⟩ | hn | ⟨hn, hpos, hcv, hle⟩)
    · exact fun x _ i hi => absurd hi (by omega)
    · exact inPlace_of_hand hf (fun x hx => order_one hx)
        fun x _ v _ => by rw [zero_mul, content_zero]
    · refine inPlace_of_hand hf (fun x hx => order_eq_hand hq hx (.inl hn)) fun x hx v hv =>
        content_of_lt ?_
      have hmul : (v + 1) * k ≤ f * k := Nat.mul_le_mul_right _ hv
      rw [add_mul] at hmul
      omega
    · refine inPlace_of_hand hf (fun x hx => order_eq_hand hq hx (.inr ⟨hn, Nat.mul_pos hpos hk⟩))
        fun x hx v hv => content_of_lt (place_lt hx (hv.trans_le hle))

end

end VllmDual.Pull
