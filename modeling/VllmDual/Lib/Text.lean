/-
  Subject:   TEXTS OF FIELDS: NUMBERS, SEPARATORS AND THE FIRST REPLACEMENT.

  A text is the list of its characters:

  * `decimal`, `hex` -- numbers and bytes as texts, which determine them (`decimal_inj`, `hex_inj`)
    and hold no separator (`notMem_decimal`, `notMem_hex`);
  * `field_inj` -- texts that begin with a field and a separator;
  * `replaceFirst` -- `str.replace(old, new, 1)`; `replaceFirst_skip` and
    `replaceFirst_match` find the place of the first occurrence field by field.
-/
import Mathlib

namespace Text

open List

variable {c : Char} {s t x y p new : List Char} {m n : Nat}

/-! ## 1. Numbers and bytes -/

def decimal (n : Nat) : List Char := Nat.toDigits 10 n

theorem decimal_inj : decimal m = decimal n ↔ m = n := by
  constructor
  · intro h
    have hd := congrArg (fun ds => Nat.ofDigitChars 10 ds 0) h
    simpa [decimal, Nat.ofDigitChars_ten_toDigits] using hd
  · rintro rfl
    rfl

theorem decimal_not_zero_first {s : List Char} (hn : n ≠ 0) : ¬ ['0'] <+: decimal n ++ s := by
  induction n using Nat.strong_induction_on generalizing s with
  | h n ih =>
    rcases Nat.lt_or_ge n 10 with hlt | hge
    · have ha : ∀ d < 10, d ≠ 0 → '0' ≠ Nat.digitChar d := by decide
      rw [decimal, Nat.toDigits_of_lt_base hlt, singleton_append, cons_prefix_cons]
      exact fun h => ha n hlt hn h.1
    · rw [decimal, Nat.toDigits_of_base_le (by decide) hge, append_assoc]
      exact ih (n / 10) (by omega) (by omega)

theorem notMem_decimal (h : c.isDigit = false) : c ∉ decimal n := by
  intro hm
  have hd : c.isDigit = true := Nat.isDigit_of_mem_toDigits (by decide) (by decide) hm
  rw [hd] at h
  cases h

def hexByte (b : UInt8) : List Char := [Nat.digitChar (b.toNat / 16), Nat.digitChar (b.toNat % 16)]

/-- `bytes.hex()`. -/
def hex (bs : List UInt8) : List Char := bs.flatMap hexByte

theorem digitChar_inj (hm : m < 16) (hn : n < 16) (h : Nat.digitChar m = Nat.digitChar n) :
    m = n := by
  have ha : ∀ m < 16, ∀ n < 16, Nat.digitChar m = Nat.digitChar n → m = n := by decide
  exact ha m hm n hn h

theorem hex_inj {as bs : List UInt8} : hex as = hex bs ↔ as = bs := by
  refine ⟨fun h => ?_, congrArg hex⟩
  induction as generalizing bs with
  | nil =>
    cases bs with
    | nil => rfl
    | cons b bs => cases h
  | cons a as ih =>
    cases bs with
    | nil => cases h
    | cons b bs =>
      simp only [hex, flatMap_cons, hexByte, cons_append, nil_append, List.cons.injEq] at h
      obtain ⟨hh, hl, hr⟩ := h
      have ha := a.toNat_lt
      have hb := b.toNat_lt
      have hd := digitChar_inj (by omega) (by omega) hh
      have hm := digitChar_inj (by omega) (by omega) hl
      have hab : a = b := UInt8.toNat_inj.mp (by omega)
      rw [hab, ih hr]

theorem notMem_hex {bs : List UInt8} (h : ∀ d < 16, Nat.digitChar d ≠ c) : c ∉ hex bs := by
  intro hm
  obtain ⟨b, -, hm⟩ := mem_flatMap.mp hm
  have hb := b.toNat_lt
  rcases mem_cons.mp hm with heq | hm
  · exact h _ (by omega) heq.symm
  · exact h _ (by omega) (mem_singleton.mp hm).symm

/-! ## 2. Separators -/

theorem field_inj (hx : c ∉ x) (hy : c ∉ y) : x ++ c :: s = y ++ c :: t ↔ x = y ∧ s = t := by
  constructor
  · intro h
    induction x generalizing y with
    | nil =>
      cases y with
      | nil => exact ⟨rfl, (List.cons.inj h).2⟩
      | cons d y => exact absurd (List.cons.inj h).1 fun heq => hy (heq ▸ mem_cons_self)
    | cons d x ih =>
      cases y with
      | nil => exact absurd (List.cons.inj h).1 fun heq => hx (heq ▸ mem_cons_self)
      | cons e y =>
        obtain ⟨hd, hr⟩ := List.cons.inj h
        obtain ⟨hxy, hst⟩ := ih (fun hm => hx (mem_cons_of_mem _ hm))
          (fun hm => hy (mem_cons_of_mem _ hm)) hr
        exact ⟨by rw [hd, hxy], hst⟩
  · rintro ⟨rfl, rfl⟩
    rfl

/-! ## 3. The first occurrence -/

/-- `str.replace(old, new, 1)`. -/
def replaceFirst (old new : List Char) : List Char → List Char
  | [] => if old = [] then new else []
  | d :: s => if old.isPrefixOf (d :: s) then new ++ (d :: s).drop old.length
    else d :: replaceFirst old new s

theorem replaceFirst_append (hs : c ∉ s) :
    replaceFirst (c :: p) new (s ++ t) = s ++ replaceFirst (c :: p) new t := by
  induction s with
  | nil => rfl
  | cons d s ih =>
    have hd : c ≠ d := fun h => hs (h ▸ mem_cons_self)
    have hn : (c :: p).isPrefixOf (d :: (s ++ t)) = false := by
      simp [List.isPrefixOf, hd]
    rw [cons_append, replaceFirst, hn, if_neg (by simp), ih fun hm => hs (mem_cons_of_mem _ hm)]
    rfl

theorem replaceFirst_skip (hs : c ∉ s) (h : ¬ p <+: s ++ t) :
    replaceFirst (c :: p) new (c :: (s ++ t)) = c :: (s ++ replaceFirst (c :: p) new t) := by
  have hn : (c :: p).isPrefixOf (c :: (s ++ t)) = false := by
    rw [Bool.eq_false_iff, ne_eq, isPrefixOf_iff_prefix, cons_prefix_cons]
    exact fun hp => h hp.2
  rw [replaceFirst, hn, if_neg (by simp), replaceFirst_append hs]

theorem replaceFirst_match : replaceFirst (c :: p) new (c :: p ++ t) = new ++ t := by
  have hm : (c :: p).isPrefixOf (c :: (p ++ t)) = true := by
    rw [ isPrefixOf_iff_prefix]
    exact prefix_append (c :: p) t
  rw [cons_append, replaceFirst, hm, if_pos rfl, ← cons_append, drop_left]

end Text
