import Mathlib

/-!
# Fractions in a base and numbers with an exponent

`fraction b ds` is the number with the digits `ds` after the point in base `b`. Digits that
do not end in zero sort as their fractions (`fraction_lt_iff`). A positive number has one
normal form, a fraction that neither begins nor ends with zero and an exponent, and normal
forms compare by the exponent first (`Normalized.value_lt_iff`).
-/

namespace Cockroach.Lib

open List

/-- The number with the digits `ds` after the point in base `b`. -/
def fraction (b : Nat) : List Nat → ℚ
  | [] => 0
  | d :: ds => (d + fraction b ds) / b

/-- Digits in base `b` that do not end in zero. -/
structure Trimmed (b : Nat) (ds : List Nat) : Prop where
  digit_lt : ∀ d ∈ ds, d < b
  last_ne : ds.getLast? ≠ some 0

section

variable {b : Nat} {d : Nat} {ds es : List Nat}

@[simp] theorem fraction_nil : fraction b [] = 0 := rfl

theorem fraction_cons : fraction b (d :: ds) = (d + fraction b ds) / b := rfl

theorem fraction_nonneg (b : Nat) (ds : List Nat) : 0 ≤ fraction b ds := by
  induction ds with
  | nil => exact le_rfl
  | cons d ds ih =>
    rw [fraction_cons]
    positivity

theorem fraction_lt_one (hds : ∀ d ∈ ds, d < b) : fraction b ds < 1 := by
  induction ds with
  | nil => exact zero_lt_one
  | cons d ds ih =>
    have hd : d < b := hds d mem_cons_self
    have hb : (0 : ℚ) < b := by exact_mod_cast (Nat.zero_le d).trans_lt hd
    have htail := ih fun e he => hds e (mem_cons_of_mem _ he)
    have hd' : (d : ℚ) + 1 ≤ b := by exact_mod_cast hd
    rw [fraction_cons, div_lt_one hb]
    linarith

theorem Trimmed.tail (h : Trimmed b (d :: ds)) : Trimmed b ds := by
  refine ⟨fun e he => h.digit_lt e (mem_cons_of_mem _ he), fun hlast => h.last_ne ?_⟩
  cases ds with
  | nil => simp at hlast
  | cons e es => rw [getLast?_cons_cons, hlast]

/-- A fraction that does not end in zero is not zero. -/
theorem Trimmed.fraction_pos (h : Trimmed b ds) (hne : ds ≠ []) : 0 < fraction b ds := by
  induction ds with
  | nil => exact absurd rfl hne
  | cons d ds ih =>
    have hd : d < b := h.digit_lt d mem_cons_self
    have hb : (0 : ℚ) < b := by exact_mod_cast (Nat.zero_le d).trans_lt hd
    rw [fraction_cons]
    apply div_pos _ hb
    cases ds with
    | nil =>
      have hd₀ : d ≠ 0 := fun h0 => h.last_ne (by simp [h0])
      rw [fraction_nil, add_zero]
      exact_mod_cast Nat.pos_of_ne_zero hd₀
    | cons e es =>
      have htail := ih h.tail (cons_ne_nil e es)
      have : (0 : ℚ) ≤ d := Nat.cast_nonneg d
      linarith

theorem fraction_lt_of_lt (hds : Trimmed b ds) (hes : Trimmed b es) (h : ds < es) :
    fraction b ds < fraction b es := by
  induction ds generalizing es with
  | nil =>
    cases es with
    | nil => exact absurd h (lt_irrefl _)
    | cons e es => exact hes.fraction_pos (cons_ne_nil e es)
  | cons d ds ih =>
    cases es with
    | nil => exact absurd h (not_lt_nil _)
    | cons e es =>
      have hd : d < b := hds.digit_lt d mem_cons_self
      have hb : (0 : ℚ) < b := by exact_mod_cast (Nat.zero_le d).trans_lt hd
      rw [fraction_cons, fraction_cons]
      apply div_lt_div_of_pos_right _ hb
      rcases cons_lt_cons_iff.mp h with hlt | ⟨rfl, htail⟩
      · -- the first digit decides, what follows is less than one
        have hlt' : (d : ℚ) + 1 ≤ e := by exact_mod_cast hlt
        have hds' := fraction_lt_one hds.tail.digit_lt
        have hes' := fraction_nonneg b es
        linarith
      · have := ih hds.tail hes.tail htail
        linarith

/-- Trimmed digits sort as their fractions. -/
theorem fraction_lt_iff (hds : Trimmed b ds) (hes : Trimmed b es) :
    fraction b ds < fraction b es ↔ ds < es := by
  refine ⟨fun h => ?_, fraction_lt_of_lt hds hes⟩
  rcases lt_trichotomy ds es with hlt | rfl | hgt
  · exact hlt
  · exact absurd h (lt_irrefl _)
  · exact absurd (fraction_lt_of_lt hes hds hgt) h.not_gt

/-- Zeros at the end add nothing. -/
theorem fraction_append_zeros (b : Nat) (ds : List Nat) (n : Nat) :
    fraction b (ds ++ replicate n 0) = fraction b ds := by
  induction ds with
  | nil =>
    induction n with
    | zero => rfl
    | succ n ih =>
      rw [nil_append] at ih
      rw [nil_append, replicate_succ, fraction_cons, ih]
      simp
  | cons d ds ih => rw [cons_append, fraction_cons, ih, fraction_cons]

/-- The digits as a whole number, moved behind the point. -/
theorem fraction_mul_pow (hb : b ≠ 0) (ds : List Nat) :
    fraction b ds * (b : ℚ) ^ ds.length = (Nat.ofDigits b ds.reverse : ℕ) := by
  induction ds with
  | nil => simp
  | cons d ds ih =>
    rw [fraction_cons, length_cons, reverse_cons, Nat.ofDigits_append,
      Nat.ofDigits_singleton, length_reverse, Nat.cast_add, Nat.cast_mul, Nat.cast_pow,
      ← ih, pow_succ]
    field_simp
    ring

end

/-! ## Normal forms -/

/-- A positive number in base `b`: a fraction that neither begins nor ends with zero, times a
power of the base. -/
structure Normalized (b : Nat) where
  exponent : Int
  digits : List Nat
  trimmed : Trimmed b digits
  ne_nil : digits ≠ []
  head_ne : digits.head? ≠ some 0

namespace Normalized

variable {b : Nat} {x y : Normalized b}

def value (x : Normalized b) : ℚ := fraction b x.digits * (b : ℚ) ^ x.exponent

theorem base_gt_one (x : Normalized b) : 1 < b := by
  obtain ⟨d, ds, hd⟩ := exists_cons_of_ne_nil x.ne_nil
  have hlt := x.trimmed.digit_lt d (by rw [hd]; exact mem_cons_self)
  have hne : d ≠ 0 := fun h0 => x.head_ne (by rw [hd, h0]; rfl)
  omega

theorem value_lt_pow (x : Normalized b) : x.value < (b : ℚ) ^ x.exponent := by
  have hb : (0 : ℚ) < b := by exact_mod_cast Nat.zero_lt_of_lt x.base_gt_one
  have hfrac := fraction_lt_one x.trimmed.digit_lt
  calc x.value = fraction b x.digits * (b : ℚ) ^ x.exponent := rfl
    _ < 1 * (b : ℚ) ^ x.exponent := mul_lt_mul_of_pos_right hfrac (zpow_pos hb _)
    _ = (b : ℚ) ^ x.exponent := one_mul _

theorem pow_le_value (x : Normalized b) : (b : ℚ) ^ (x.exponent - 1) ≤ x.value := by
  have hb : (0 : ℚ) < b := by exact_mod_cast Nat.zero_lt_of_lt x.base_gt_one
  obtain ⟨d, ds, hd⟩ := exists_cons_of_ne_nil x.ne_nil
  have hne : d ≠ 0 := fun h0 => x.head_ne (by rw [hd, h0]; rfl)
  have hd₁ : (1 : ℚ) ≤ d := by exact_mod_cast Nat.pos_of_ne_zero hne
  have hrest := fraction_nonneg b ds
  rw [value, hd, fraction_cons, zpow_sub_one₀ hb.ne', div_mul_eq_mul_div, div_eq_mul_inv]
  apply mul_le_mul_of_nonneg_right _ (inv_nonneg.mpr hb.le)
  have hpow := (zpow_pos hb x.exponent).le
  nlinarith

theorem value_lt_of_exponent_lt (h : x.exponent < y.exponent) : x.value < y.value := by
  have hb : (1 : ℚ) ≤ b := by exact_mod_cast x.base_gt_one.le
  calc x.value < (b : ℚ) ^ x.exponent := x.value_lt_pow
    _ ≤ (b : ℚ) ^ (y.exponent - 1) := zpow_le_zpow_right₀ hb (by omega)
    _ ≤ y.value := y.pow_le_value

theorem value_lt_iff_of_exponent_eq (h : x.exponent = y.exponent) :
    x.value < y.value ↔ x.digits < y.digits := by
  have hb : (0 : ℚ) < b := by exact_mod_cast Nat.zero_lt_of_lt x.base_gt_one
  rw [value, value, h, mul_lt_mul_iff_left₀ (zpow_pos hb _), fraction_lt_iff x.trimmed y.trimmed]

/-- Normal forms compare by their exponents, then by their digits. -/
theorem value_lt_iff : x.value < y.value ↔
      x.exponent < y.exponent ∨ x.exponent = y.exponent ∧ x.digits < y.digits := by
  rcases lt_trichotomy x.exponent y.exponent with hlt | heq | hgt
  · simp [hlt, value_lt_of_exponent_lt hlt]
  · simp [heq, value_lt_iff_of_exponent_eq heq]
  · have := value_lt_of_exponent_lt hgt
    simp [hgt.not_gt, hgt.ne', this.not_gt]

/-- A number has one normal form. -/
theorem value_injective (h : x.value = y.value) :
    x.exponent = y.exponent ∧ x.digits = y.digits := by
  have hexp : x.exponent = y.exponent := by
    rcases lt_trichotomy x.exponent y.exponent with hlt | heq | hgt
    · exact absurd h (value_lt_of_exponent_lt hlt).ne
    · exact heq
    · exact absurd h (value_lt_of_exponent_lt hgt).ne'
  refine ⟨hexp, ?_⟩
  rcases lt_trichotomy x.digits y.digits with hlt | heq | hgt
  · exact absurd h ((value_lt_iff_of_exponent_eq hexp).mpr hlt).ne
  · exact heq
  · exact absurd h ((value_lt_iff_of_exponent_eq hexp.symm).mpr hgt).ne'

end Normalized

end Cockroach.Lib
