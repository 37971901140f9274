/-
  Subject:   ALIGNING TWO LISTS OF EXTENTS THAT CUT ONE LENGTH DIFFERENTLY.

  The walk takes the shorter remainder of the two current extents as the next piece and moves on
  in the list (or lists) whose extent is used up. Its meaning is a zip: the pieces pair the points
  of the first list with those of the second, in order:

  * `walk` -- the pieces, and the two lists it stops with;
  * `walk_points` -- the pieces enumerate exactly the zipped points;
  * `walk_finished_iff` -- both lists are used up exactly when their totals are equal.
-/
import Mathlib

namespace Align

open List

variable {α β X Y : Type}

/-- `count` points of `left` from `leftOffset` on, beside as many of `right` from
    `rightOffset` on. -/
structure Piece (α β : Type) where
  left : α
  leftOffset : Int
  right : β
  rightOffset : Int
  count : Int

variable (len : α → Int)

/-- What is left of a list of extents after `count` more points of its first one, `offset` of
    which were used already: the list, and the offset into it. -/
def advance (a : α) (as : List α) (offset count : Int) : List α × Int :=
  if offset + count = len a then (as, 0) else (a :: as, offset + count)

def walk (len₁ : α → Int) (len₂ : β → Int) (as : List α) (o₁ : Int) (bs : List β) (o₂ : Int) :
    List (Piece α β) × List α × List β :=
  match as, bs with
  | a :: as, b :: bs =>
    let count := min (len₁ a - o₁) (len₂ b - o₂)
    let next₁ := advance len₁ a as o₁ count
    let next₂ := advance len₂ b bs o₂ count
    let rest := walk len₁ len₂ next₁.1 next₁.2 next₂.1 next₂.2
    (⟨a, o₁, b, o₂, count⟩ :: rest.1, rest.2)
  | as, bs => ([], as, bs)
termination_by as.length + bs.length
decreasing_by
  -- `count` is one of the two remainders, so one of the two lists gets shorter
  simp only [advance, length_cons]
  rcases le_total (len₁ a - o₁) (len₂ b - o₂) with h | h
  · rw [min_eq_left h, if_pos (by omega)]
    split <;> simp only [length_cons] <;> omega
  · rw [min_eq_right h, if_pos (c := o₂ + (len₂ b - o₂) = len₂ b) (by omega)]
    split <;> simp only [length_cons] <;> omega

/-! ## 1. Points -/

def points (f : α → Int → X) (as : List α) : List X :=
  as.flatMap fun a => (range (len a).toNat).map fun k : Nat => f a k

def Piece.pairs (f : α → Int → X) (g : β → Int → Y) (p : Piece α β) : List (X × Y) :=
  (range p.count.toNat).map fun k : Nat =>
    (f p.left (p.leftOffset + k), g p.right (p.rightOffset + k))

def total (as : List α) : Int := (as.map len).sum

/-- An offset into a list of nonempty extents: inside the first one. -/
def Inside (as : List α) (o : Int) : Prop :=
  0 ≤ o ∧ (∀ a ∈ as, 0 < len a) ∧ (as = [] → o = 0) ∧ ∀ a ∈ as.head?, o < len a

theorem inside_zero {len : α → Int} {as : List α} (h : ∀ a ∈ as, 0 < len a) : Inside len as 0 :=
  ⟨le_refl 0, h, fun _ => rfl, fun a ha => h a (mem_of_mem_head? ha)⟩

section Step

variable {len : α → Int} {a : α} {as : List α} {o c : Int}

theorem Inside.advance (h : Inside len (a :: as) o) (hc : 0 ≤ c) (hle : c ≤ len a - o) :
    Inside len (advance len a as o c).1 (advance len a as o c).2 := by
  obtain ⟨ho, hp, -, -⟩ := h
  unfold Align.advance
  split
  · exact inside_zero fun x hx => hp x (mem_cons_of_mem _ hx)
  · rename_i hne
    refine ⟨by simp only; omega, hp, by simp, fun x hx => ?_⟩
    obtain rfl : x = a := by simpa using hx.symm
    simp only
    omega

theorem points_drop_advance (f : α → Int → X) (ho : 0 ≤ o) (hc : 0 ≤ c) :
    (points len f (advance len a as o c).1).drop (advance len a as o c).2.toNat
      = (points len f (a :: as)).drop (o.toNat + c.toNat) := by
  unfold Align.advance
  split
  · rename_i heq
    have hl : o.toNat + c.toNat = ((range (len a).toNat).map fun k : Nat => f a k).length := by
      rw [length_map, length_range]
      omega
    rw [points, points, flatMap_cons, hl, drop_left]
    rfl
  · simp only [Int.toNat_add ho hc]

theorem points_take (f : α → Int → X) (ho : 0 ≤ o) (hc : 0 ≤ c) (hle : c ≤ len a - o) :
    ((points len f (a :: as)).drop o.toNat).take c.toNat = (range c.toNat).map fun k : Nat =>
      f a (o + k) := by
  have hl : ((range (len a).toNat).map fun k : Nat => f a k).length = (len a).toNat := by
    simp
  rw [points, flatMap_cons, drop_append_of_le_length (by rw [hl]; omega),
    take_append_of_le_length (by rw [length_drop, hl]; omega)]
  apply ext_getElem
  · simp only [length_take, length_drop, length_map, length_range]
    omega
  · intro i h1 h2
    simp only [getElem_take, getElem_drop, getElem_map, getElem_range]
    congr 1
    omega

theorem total_advance : total len (advance len a as o c).1 - (advance len a as o c).2
    = total len (a :: as) - o - c := by
  unfold Align.advance total
  split
  · rename_i heq
    simp only [map_cons, sum_cons]
    omega
  · simp only [map_cons, sum_cons]
    omega

end Step

/-! ## 2. What the walk does -/

section Walk

variable {len₁ : α → Int} {len₂ : β → Int} {as : List α} {o₁ o₂ : Int} {bs : List β}

theorem walk_nil_left (o₁ : Int) (bs : List β) (o₂ : Int) :
    walk len₁ len₂ [] o₁ bs o₂ = ([], [], bs) := by
  unfold walk
  rfl

theorem walk_nil_right (as : List α) (o₁ o₂ : Int) : walk len₁ len₂ as o₁ [] o₂ = ([], as, []) := by
  unfold walk
  cases as <;> rfl

theorem walk_cons (a : α) (as : List α) (o₁ : Int) (b : β) (bs : List β) (o₂ : Int) :
    walk len₁ len₂ (a :: as) o₁ (b :: bs) o₂ =
      let c := min (len₁ a - o₁) (len₂ b - o₂)
      let n₁ := advance len₁ a as o₁ c
      let n₂ := advance len₂ b bs o₂ c
      let rest := walk len₁ len₂ n₁.1 n₁.2 n₂.1 n₂.2
      (⟨a, o₁, b, o₂, c⟩ :: rest.1, rest.2) := by
  conv => lhs; unfold walk

theorem walk_induction {P : List α → Int → List β → Int → Prop}
    (hn : ∀ o₁ bs o₂, Inside len₂ bs o₂ → o₁ = 0 → P [] o₁ bs o₂)
    (hn' : ∀ as o₁ o₂, Inside len₁ as o₁ → o₂ = 0 → P as o₁ [] o₂)
    (hs : ∀ a as o₁ b bs o₂ c, Inside len₁ (a :: as) o₁ → Inside len₂ (b :: bs) o₂ →
      0 < c → c ≤ len₁ a - o₁ → c ≤ len₂ b - o₂ → c = min (len₁ a - o₁) (len₂ b - o₂) →
      P (advance len₁ a as o₁ c).1 (advance len₁ a as o₁ c).2
        (advance len₂ b bs o₂ c).1 (advance len₂ b bs o₂ c).2 → P (a :: as) o₁ (b :: bs) o₂)
    (as : List α) (o₁ : Int) (bs : List β) (o₂ : Int) (h₁ : Inside len₁ as o₁)
    (h₂ : Inside len₂ bs o₂) : P as o₁ bs o₂ := by
  induction as, o₁, bs, o₂ using walk.induct len₁ len₂ with
  | case1 o₁ o₂ a as b bs c n₁ n₂ ih =>
    have hlt₁ : o₁ < len₁ a := h₁.2.2.2 a (by simp)
    have hlt₂ : o₂ < len₂ b := h₂.2.2.2 b (by simp)
    have hc : 0 < c := by simp only [c]; omega
    have hle₁ : c ≤ len₁ a - o₁ := min_le_left _ _
    have hle₂ : c ≤ len₂ b - o₂ := min_le_right _ _
    exact hs a as o₁ b bs o₂ c h₁ h₂ hc hle₁ hle₂ rfl
      (ih (h₁.advance hc.le hle₁) (h₂.advance hc.le hle₂))
  | case2 o₁ o₂ as bs hne =>
    cases as with
    | nil => exact hn o₁ bs o₂ h₂ (h₁.2.2.1 rfl)
    | cons a as =>
      cases bs with
      | nil => exact hn' (a :: as) o₁ o₂ h₁ (h₂.2.2.1 rfl)
      | cons b bs => exact absurd rfl (hne a as b bs · rfl)

/-- **The walk is a zip**: its pieces enumerate the points of the two lists side by side. -/
theorem walk_points (f : α → Int → X) (g : β → Int → Y) (h₁ : Inside len₁ as o₁)
    (h₂ : Inside len₂ bs o₂) : (walk len₁ len₂ as o₁ bs o₂).1.flatMap (Piece.pairs f g)
      = ((points len₁ f as).drop o₁.toNat).zip ((points len₂ g bs).drop o₂.toNat) := by
  refine walk_induction (P := fun as o₁ bs o₂ =>
    (walk len₁ len₂ as o₁ bs o₂).1.flatMap (Piece.pairs f g)
      = ((points len₁ f as).drop o₁.toNat).zip ((points len₂ g bs).drop o₂.toNat))
    ?_ ?_ ?_ as o₁ bs o₂ h₁ h₂
  · intro o₁ bs o₂ _ _
    simp [walk_nil_left, points]
  · intro as o₁ o₂ _ _
    simp [walk_nil_right, points]
  · intro a as o₁ b bs o₂ c hin₁ hin₂ hc hle₁ hle₂ hm ih
    -- split both rests after the `c` points of this piece
    rw [walk_cons, ← hm]
    simp only [flatMap_cons]
    rw [ih, points_drop_advance f hin₁.1 hc.le, points_drop_advance g hin₂.1 hc.le, ← drop_drop,
      ← drop_drop]
    conv =>
      rhs
      rw [← take_append_drop c.toNat ((points len₁ f (a :: as)).drop o₁.toNat),
        ← take_append_drop c.toNat ((points len₂ g (b :: bs)).drop o₂.toNat)]
    rw [points_take f hin₁.1 hc.le hle₁, points_take g hin₂.1 hc.le hle₂, zip_append (by simp),
      zip_map']
    rfl

theorem walk_finished_iff (h₁ : Inside len₁ as o₁) (h₂ : Inside len₂ bs o₂) :
    (walk len₁ len₂ as o₁ bs o₂).2 = ([], []) ↔ total len₁ as - o₁ = total len₂ bs - o₂ := by
  -- a list of nonempty extents that is not used up has points left
  have hl : ∀ {γ : Type} {len : γ → Int} {cs : List γ} {o : Int}, Inside len cs o →
      (cs = [] ↔ total len cs - o = 0) := by
    intro γ len cs o hin
    cases cs with
    | nil => simp [total, hin.2.2.1 rfl]
    | cons x cs =>
      have hr : 0 ≤ (cs.map len).sum := sum_nonneg fun y hy => by
        obtain ⟨z, hz, rfl⟩ := mem_map.mp hy
        exact (hin.2.1 z (mem_cons_of_mem _ hz)).le
      have hlt : o < len x := hin.2.2.2 x (by simp)
      simp only [total, map_cons, sum_cons, reduceCtorEq, false_iff]
      omega
  refine walk_induction (P := fun as o₁ bs o₂ => (walk len₁ len₂ as o₁ bs o₂).2 = ([], []) ↔
    total len₁ as - o₁ = total len₂ bs - o₂) ?_ ?_ ?_ as o₁ bs o₂ h₁ h₂
  · intro o₁ bs o₂ hin h0
    simp only [walk_nil_left, Prod.mk.injEq, true_and, hl hin, h0]
    exact eq_comm
  · intro as o₁ o₂ hin h0
    simp only [walk_nil_right, Prod.mk.injEq, and_true, hl hin, h0]
    rfl
  · intro a as o₁ b bs o₂ c _ _ _ _ _ hm ih
    rw [total_advance, total_advance, sub_left_inj] at ih
    rwa [walk_cons, ← hm]

theorem walk_forall {Q : Piece α β → Prop} (h₁ : Inside len₁ as o₁) (h₂ : Inside len₂ bs o₂)
    (hQ : ∀ p : Piece α β, p.left ∈ as → p.right ∈ bs → 0 < p.count → 0 ≤ p.leftOffset →
      p.leftOffset + p.count ≤ len₁ p.left → 0 ≤ p.rightOffset →
      p.rightOffset + p.count ≤ len₂ p.right → Q p) : ∀ p ∈ (walk len₁ len₂ as o₁ bs o₂).1,
        Q p := by
  have hm : ∀ {γ : Type} {len : γ → Int} {x y : γ} {cs : List γ} {o c : Int},
      y ∈ (advance len x cs o c).1 → y ∈ x :: cs := by
    intro γ len x y cs o c hy
    unfold advance at hy
    split at hy
    · exact mem_cons_of_mem _ hy
    · exact hy
  revert hQ
  refine walk_induction (P := fun as o₁ bs o₂ => (∀ p : Piece α β, p.left ∈ as → p.right ∈ bs →
    0 < p.count → 0 ≤ p.leftOffset → p.leftOffset + p.count ≤ len₁ p.left → 0 ≤ p.rightOffset →
    p.rightOffset + p.count ≤ len₂ p.right → Q p) →
    ∀ p ∈ (walk len₁ len₂ as o₁ bs o₂).1, Q p) ?_ ?_ ?_ as o₁ bs o₂ h₁ h₂
  · intro o₁ bs o₂ _ _ _ p hp
    simp [walk_nil_left] at hp
  · intro as o₁ o₂ _ _ _ p hp
    simp [walk_nil_right] at hp
  · intro a as o₁ b bs o₂ c hin₁ hin₂ hc hle₁ hle₂ hmin ih hQ p hp
    rw [walk_cons, ← hmin] at hp
    rcases mem_cons.mp hp with hp | hp
    · subst hp
      exact hQ _ (by simp) (by simp) hc hin₁.1 (by simp only; omega) hin₂.1 (by simp only; omega)
    · exact ih (fun q hq₁ hq₂ => hQ q (hm hq₁) (hm hq₂)) p hp

end Walk

/-! ## 3. Points that are several units wide -/

theorem range_mul_map (n w : Nat) (f : Nat → X) :
    (range (n * w)).map f = (range n).flatMap fun j => (range w).map fun b => f (j * w + b) := by
  induction n with
  | zero => simp
  | succ n ih =>
    rw [Nat.succ_mul, range_add, map_append, ih, range_succ, flatMap_append]
    simp [Function.comp_def]

theorem flatMap_swap_perm (as : List α) (bs : List β) (f : α → β → List X) :
    (as.flatMap fun a => bs.flatMap fun b => f a b).Perm
      (bs.flatMap fun b => as.flatMap fun a => f a b) := by
  induction as with
  | nil => simp
  | cons a as ih =>
    simp only [flatMap_cons]
    exact (ih.append_left _).trans (flatMap_append_perm bs _ _)

end Align
