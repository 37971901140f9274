/-
  Subject:   CEILING DIVISION AND ROUNDING TO MULTIPLES, OVER THE INTEGERS.

  Division here rounds down; the ceiling is written with it, as `-(a // -b)`:

  * `cdiv`, `cdiv_le_iff` -- the ceiling is characterised by what it is at most;
  * `roundUp`, `roundDown` -- the nearest multiples above and below.
-/
import Mathlib

namespace Ceil

def cdiv (a b : Int) : Int := -(Int.fdiv a (-b))

variable {a b c n : Int}

variable (hb : 0 < b)
include hb

theorem cdiv_eq_ediv : cdiv a b = (a + b - 1) / b := by
  have hf : Int.fdiv a (-b) = Int.fdiv (-a) b := by
    rw [← Int.neg_fdiv_neg, neg_neg]
  rw [cdiv, hf, Int.fdiv_eq_ediv_of_nonneg _ hb.le]
  have hd := Int.mul_ediv_add_emod (-a) b
  have hm := Int.emod_nonneg (-a) hb.ne'
  have hlt := Int.emod_lt_of_pos (-a) hb
  have hp : -(-a / b) * b = -(b * (-a / b)) := by ring
  symm
  refine Int.ediv_eq_iff_of_pos hb |>.mpr ⟨?_, ?_⟩ <;> omega

theorem cdiv_le_iff : cdiv a b ≤ n ↔ a ≤ n * b := by
  rw [cdiv_eq_ediv hb, ← Int.lt_add_one_iff, Int.ediv_lt_iff_lt_mul hb, add_mul, one_mul]
  omega

theorem lt_cdiv_iff : n < cdiv a b ↔ n * b < a := by
  rw [← not_le, cdiv_le_iff hb, not_le]

theorem le_cdiv_mul : a ≤ cdiv a b * b := (cdiv_le_iff hb).mp le_rfl

theorem cdiv_mono (h : a ≤ c) : cdiv a b ≤ cdiv c b :=
  (cdiv_le_iff hb).mpr (h.trans (le_cdiv_mul hb))

theorem cdiv_nonneg (h : 0 ≤ a) : 0 ≤ cdiv a b := by
  by_contra hneg
  have hlt : cdiv a b ≤ -1 := by omega
  have hle := (cdiv_le_iff hb).mp hlt
  omega

@[simp] theorem cdiv_mul_self : cdiv (n * b) b = n := by
  refine le_antisymm ((cdiv_le_iff hb).mpr le_rfl) ?_
  exact le_of_mul_le_mul_right (le_cdiv_mul hb) hb

/-- The least multiple of `b` from `a` on. -/
def roundUp (a b : Int) : Int := cdiv a b * b

/-- The greatest multiple of `b` up to `a`. -/
def roundDown (a b : Int) : Int := a / b * b

theorem roundUp_of_dvd (h : b ∣ a) : roundUp a b = a := by
  obtain ⟨k, rfl⟩ := h
  rw [roundUp, Int.mul_comm b k, cdiv_mul_self hb]

omit hb

theorem toNat_mul_natCast (a : Int) (k : Nat) : (a * k).toNat = a.toNat * k := by
  rcases le_total 0 a with ha | ha
  · obtain ⟨i, rfl⟩ := Int.eq_ofNat_of_zero_le ha
    rw [← Int.natCast_mul, Int.toNat_natCast, Int.toNat_natCast]
  · have hm : a * k ≤ 0 := Int.mul_nonpos_of_nonpos_of_nonneg ha (Int.natCast_nonneg k)
    rw [Int.toNat_of_nonpos ha, Int.toNat_of_nonpos hm, Nat.zero_mul]

end Ceil
