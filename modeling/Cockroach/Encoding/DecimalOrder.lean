import Cockroach.Encoding.Decimal

/-!
# Order and round trip of decimal keys

The code of a finite decimal other than zero is that of its exponent, its mantissa and a
terminator (`encodeEandM_eq`). For positive numbers the codes of exponents sort as the
exponents, for negative ones the other way round (`expCode_precedes`). With the tags of the
other decimals around them, codes sort as the decimals do, equal decimals have equal codes,
and decoding gives the same number back as long as the exponent that takes up the trailing
zeros of the coefficient fits an `int32` (`decimal_keys`).
-/

namespace Cockroach.Encoding

open Lib Decimal List

/-! ## What the buffers hold -/

theorem put_append {a b c w : List UInt8} {i : Nat} (hi : a.length = i)
    (hb : b.length = w.length) : put (a ++ (b ++ c)) i w = a ++ (w ++ c) := by
  subst hi
  rw [put, take_left, ← drop_drop, drop_left, drop_left' hb, append_assoc]

theorem exists_append {l : List UInt8} {n : Nat} (h : n ≤ l.length) :
    ∃ a b, l = a ++ b ∧ a.length = n :=
  ⟨l.take n, l.drop n, (take_append_drop n l).symm, length_take_of_le h⟩

theorem encodeVarExpNumber_eq {tag : UInt8} {expAscending : Bool} {exp : UInt64}
    {m encInto : List UInt8}
    (h : 1 + (encodeExp expAscending exp).length + m.length + 1 ≤ encInto.length) :
    encodeVarExpNumber tag expAscending exp m encInto =
      .ok (tag :: encodeExp expAscending exp ++ m ++ [decimalTerminator]) := by
  have hn : (if expAscending then encLenUvarintAscending exp else encLenUvarintDescending exp) =
      (encodeExp expAscending exp).length := by
    unfold encodeExp
    split
    · exact encLenUvarintAscending_eq exp
    · exact encLenUvarintDescending_eq exp
  unfold encodeVarExpNumber
  simp only [hn]
  generalize encodeExp expAscending exp = code at h ⊢
  rw [if_neg (by omega)]
  -- the buffer, cut where the pieces go
  obtain ⟨x, buf, rfl, hx⟩ := exists_append (n := 1) (by omega : 1 ≤ encInto.length)
  rw [length_append] at h
  obtain ⟨u, buf, rfl, hu⟩ := exists_append (by omega : code.length ≤ buf.length)
  rw [length_append] at h
  obtain ⟨v, buf, rfl, hv⟩ := exists_append (by omega : m.length ≤ buf.length)
  rw [length_append] at h
  obtain ⟨y, buf, rfl, hy⟩ := exists_append (n := 1) (by omega : 1 ≤ buf.length)
  have h₁ : put (x ++ (u ++ (v ++ (y ++ buf)))) (1 + code.length) m =
      x ++ (u ++ (m ++ (y ++ buf))) := by
    rw [← append_assoc, put_append (by simp [hx, hu]) hv, append_assoc]
  have h₂ : put (x ++ (u ++ (m ++ (y ++ buf)))) 0 [tag] =
      [tag] ++ (u ++ (m ++ (y ++ buf))) := put_append (a := []) rfl hx
  have h₃ : put ([tag] ++ (u ++ (m ++ (y ++ buf)))) 1 code =
      [tag] ++ (code ++ (m ++ (y ++ buf))) := put_append rfl hu
  have h₄ : put ([tag] ++ (code ++ (m ++ (y ++ buf)))) (1 + code.length + m.length)
      [decimalTerminator] = [tag] ++ (code ++ (m ++ ([decimalTerminator] ++ buf))) := by
    rw [← append_assoc, ← append_assoc, put_append (by simp; omega) hy]
    simp only [append_assoc]
  rw [h₁, h₂, h₃, h₄]
  have htake : ([tag] ++ (code ++ (m ++ ([decimalTerminator] ++ buf)))).take
      (1 + code.length + m.length + 1) = [tag] ++ (code ++ (m ++ [decimalTerminator])) := by
    rw [show [tag] ++ (code ++ (m ++ ([decimalTerminator] ++ buf))) =
      ([tag] ++ (code ++ (m ++ [decimalTerminator]))) ++ buf by simp]
    exact take_left' (by simp; omega)
  rw [htake]
  simp

variable (negative : Bool)

/-- The mantissa as a number of that sign has it. -/
def signed (m : List UInt8) : List UInt8 :=
  if negative then onesComplement m else m

@[simp] theorem length_signed (m : List UInt8) : (signed negative m).length = m.length := by
  cases negative <;> simp [signed, onesComplement]

theorem signed_signed (m : List UInt8) : signed negative (signed negative m) = m := by
  cases negative with
  | false => rfl
  | true => exact map_complement_complement m

def mediumTag (e : Int) : UInt8 :=
  if negative then decimalNegMedium - UInt8.ofNat e.toNat
  else decimalPosMedium + UInt8.ofNat e.toNat

theorem encodeMediumNumber_eq {negative : Bool} {e : Int} {m encInto : List UInt8}
    (h : 1 + m.length + 1 ≤ encInto.length) :
    encodeMediumNumber negative e m encInto =
      .ok (mediumTag negative e :: signed negative m ++ [decimalTerminator]) := by
  unfold encodeMediumNumber
  rw [if_neg (by omega)]
  obtain ⟨x, buf, rfl, hx⟩ := exists_append (n := 1) (by omega : 1 ≤ encInto.length)
  rw [length_append] at h
  obtain ⟨v, buf, rfl, hv⟩ := exists_append (by omega : m.length ≤ buf.length)
  rw [length_append] at h
  obtain ⟨y, buf, rfl, hy⟩ := exists_append (n := 1) (by omega : 1 ≤ buf.length)
  have h₁ : put (x ++ (v ++ (y ++ buf))) 1 m = x ++ (m ++ (y ++ buf)) := put_append hx hv
  have h₂ : ∀ tag, put (x ++ (m ++ (y ++ buf))) 0 [tag] = [tag] ++ (m ++ (y ++ buf)) :=
    fun tag => put_append (a := []) rfl hx
  have h₃ : ∀ tag : UInt8, put ([tag] ++ (m ++ (y ++ buf))) 1 (onesComplement m) =
      [tag] ++ (onesComplement m ++ (y ++ buf)) :=
    fun tag => put_append rfl (by simp [onesComplement])
  have hslice : ((x ++ (m ++ (y ++ buf))).take (1 + m.length)).drop 1 = m := by
    rw [← append_assoc, take_left' (by simp [hx]), drop_left' hx]
  have h₄ : ∀ (tag : UInt8) (m' : List UInt8), m'.length = m.length →
      (put ([tag] ++ (m' ++ (y ++ buf))) (1 + m.length) [decimalTerminator]).take
        (1 + m.length + 1) = tag :: m' ++ [decimalTerminator] := by
    intro tag m' hm'
    rw [← append_assoc, put_append (by simp [hm']; omega) hy, ← append_assoc]
    exact take_left' (by simp [hm']; omega)
  rw [h₁]
  cases negative with
  | false =>
    simp only [Bool.false_eq_true, if_false, h₂, mediumTag, signed]
    rw [h₄ _ m rfl]
  | true =>
    simp only [if_true, h₂, hslice, h₃, mediumTag, signed]
    rw [h₄ _ _ (by simp [onesComplement])]

/-! ## Exponents -/

def smallTag : UInt8 := if negative then decimalNegSmall else decimalPosSmall

def largeTag : UInt8 := if negative then decimalNegLarge else decimalPosLarge

/-- What is written before the mantissa. -/
def expCode (e : Int) : List UInt8 :=
  if e < 0 then smallTag negative :: encodeExp negative (UInt64.ofInt (-e))
  else if e ≤ 10 then [mediumTag negative e]
  else largeTag negative :: encodeExp (!negative) (UInt64.ofInt e)

theorem encodeSmallNumber_eq (e : Int) (m encInto : List UInt8) :
    encodeSmallNumber negative e m encInto =
      encodeVarExpNumber (smallTag negative) negative (UInt64.ofInt (-e)) (signed negative m)
        encInto := by
  cases negative <;> rfl

theorem encodeLargeNumber_eq (e : Int) (m encInto : List UInt8) :
    encodeLargeNumber negative e m encInto =
      encodeVarExpNumber (largeTag negative) (!negative) (UInt64.ofInt e) (signed negative m)
        encInto := by
  cases negative <;> rfl

theorem length_encodeExp_le (expAscending : Bool) (exp : UInt64) :
    (encodeExp expAscending exp).length ≤ 9 := by
  have := width_le exp.toNat
  unfold encodeExp encodeUvarintAscending encodeUvarintDescending
  split_ifs <;> simp <;> omega

/-- A number is its exponent, its mantissa and the terminator. -/
theorem encodeEandM_eq (e : Int) (m : List UInt8) : encodeEandM negative e m =
      .ok (expCode negative e ++ signed negative m ++ [decimalTerminator]) := by
  have hbuf : ∀ a exp, 1 + (encodeExp a exp).length + (signed negative m).length + 1 ≤
      (replicate (m.length + maxVarintLen + 2) (0 : UInt8)).length := by
    intro a exp
    have := length_encodeExp_le a exp
    rw [length_replicate, length_signed, maxVarintLen]
    omega
  unfold encodeEandM expCode
  split_ifs with hneg hmed
  · rw [encodeSmallNumber_eq, encodeVarExpNumber_eq (hbuf _ _)]
  · rw [encodeMediumNumber_eq (by rw [length_replicate, maxVarintLen]; omega)]
    rfl
  · rw [encodeLargeNumber_eq, encodeVarExpNumber_eq (hbuf _ _)]

theorem toNat_ofInt {e : Int} (h₀ : 0 ≤ e) (h : e < 2 ^ 64) : (UInt64.ofInt e).toNat = e.toNat := by
  unfold UInt64.ofInt
  rw [UInt64.toNat_ofNat']
  omega

section Exponents

variable {e e' : Int}

theorem expCode_cases (e : Int) :
    (e < 0 ∧ expCode negative e = smallTag negative :: encodeExp negative (UInt64.ofInt (-e))) ∨
    ((0 ≤ e ∧ e ≤ 10) ∧ expCode negative e = [mediumTag negative e]) ∨
    (10 < e ∧
      expCode negative e = largeTag negative :: encodeExp (!negative) (UInt64.ofInt e)) := by
  unfold expCode
  split_ifs with hneg hmed
  · exact .inl ⟨hneg, rfl⟩
  · exact .inr (.inl ⟨⟨not_lt.mp hneg, hmed⟩, rfl⟩)
  · exact .inr (.inr ⟨not_le.mp hmed, rfl⟩)

theorem toNat_mediumTag (h : 0 ≤ e ∧ e ≤ 10) :
    (mediumTag negative e).toNat = if negative then 37 - e.toNat else 41 + e.toNat := by
  obtain ⟨h₀, h⟩ := h
  cases negative <;> interval_cases e <;> rfl

/-- The codes sort one way for positive numbers, the other way round for negative ones. -/
def PrecedesAs (c d : List UInt8) : Prop :=
  if negative then Precedes d c else Precedes c d

theorem PrecedesAs.head {negative : Bool} {a b : UInt8} {c d : List UInt8}
    (h : if negative then b.toNat < a.toNat else a.toNat < b.toNat) :
    PrecedesAs negative (a :: c) (b :: d) := by
  cases negative <;> exact precedes_of_head_lt (UInt8.lt_iff_toNat_lt.mpr h)

theorem PrecedesAs.cons {negative : Bool} {c d : List UInt8} (a : UInt8)
    (h : PrecedesAs negative c d) : PrecedesAs negative (a :: c) (a :: d) := by
  cases negative <;> exact Precedes.cons a h

/-- An exponent that is written descending sorts the other way round. -/
theorem encodeExp_precedes {v w : UInt64} (h : v.toNat < w.toNat) (negative : Bool) :
    PrecedesAs negative (encodeExp (!negative) v) (encodeExp (!negative) w) ∧
      PrecedesAs negative (encodeExp negative w) (encodeExp negative v) := by
  cases negative with
  | false => exact ⟨encodeUvarintAscending_precedes h, encodeUvarintDescending_precedes h⟩
  | true => exact ⟨encodeUvarintDescending_precedes h, encodeUvarintAscending_precedes h⟩

/-- The codes of exponents sort as the exponents. -/
theorem expCode_precedes (h : e < e') (hlow : -2 ^ 63 ≤ e)
    (hhigh : e' < 2 ^ 63) : PrecedesAs negative (expCode negative e) (expCode negative e') := by
  rcases expCode_cases negative e with ⟨he, hc⟩ | ⟨he, hc⟩ | ⟨he, hc⟩ <;>
    rcases expCode_cases negative e' with ⟨he', hc'⟩ | ⟨he', hc'⟩ | ⟨he', hc'⟩ <;>
    rw [hc, hc']
  · apply PrecedesAs.cons
    refine (encodeExp_precedes ?_ negative).2
    rw [toNat_ofInt (by omega) (by omega), toNat_ofInt (by omega) (by omega)]
    omega
  · apply PrecedesAs.head
    rw [toNat_mediumTag negative he']
    cases negative with
    | false => exact Nat.lt_add_right _ (by decide)
    | true =>
      show 37 - e'.toNat < 38
      omega
  · apply PrecedesAs.head
    cases negative <;> decide
  · omega
  · apply PrecedesAs.head
    rw [toNat_mediumTag negative he, toNat_mediumTag negative he']
    split_ifs <;> omega
  · apply PrecedesAs.head
    rw [toNat_mediumTag negative he]
    cases negative with
    | false =>
      show 41 + e.toNat < 52
      omega
    | true =>
      show 26 < 37 - e.toNat
      omega
  · omega
  · omega
  · apply PrecedesAs.cons
    refine (encodeExp_precedes ?_ negative).1
    rw [toNat_ofInt (by omega) (by omega), toNat_ofInt (by omega) (by omega)]
    omega

end Exponents

/-! ## Numbers -/

/-- The code of a number in normal form. -/
def numberCode (x : Normalized 100) : List UInt8 :=
  expCode negative x.exponent ++ signed negative (mantissa x.digits) ++ [decimalTerminator]

/-- The exponent fits a Go `int`. -/
def Fits (x : Normalized 100) : Prop := -2 ^ 63 ≤ x.exponent ∧ x.exponent < 2 ^ 63

section Numbers

variable {x y : Normalized 100}

theorem numberCode_precedes (hx : Fits x) (hy : Fits y)
    (h : x.value < y.value) :
    PrecedesAs negative (numberCode negative x) (numberCode negative y) := by
  rcases Normalized.value_lt_iff.mp h with hexp | ⟨hexp, hdigits⟩
  · have hcode := expCode_precedes negative hexp hx.1 hy.2
    cases negative <;> exact (Precedes.append hcode _ _).append _ _
  · have hm := mantissa_precedes x.trimmed.digit_lt y.trimmed.digit_lt x.ne_nil hdigits
    unfold numberCode
    rw [hexp]
    cases negative with
    | false => exact (hm.prepend _).append _ _
    | true => exact ((hm.map_anti strictAnti_complement).prepend _).append _ _

theorem numberCode_eq_of_value_eq (h : x.value = y.value) :
    numberCode negative x = numberCode negative y := by
  obtain ⟨hexp, hdigits⟩ := Normalized.value_injective h
  rw [numberCode, hexp, hdigits, numberCode]

/-- The tags of negative and of positive numbers. -/
theorem numberCode_head (x : Normalized 100) : ∃ t c, numberCode negative x = t :: c ∧
      if negative then 26 ≤ t.toNat ∧ t.toNat ≤ 38 else 40 ≤ t.toNat ∧ t.toNat ≤ 52 := by
  unfold numberCode
  rcases expCode_cases negative x.exponent with ⟨-, hc⟩ | ⟨he, hc⟩ | ⟨-, hc⟩ <;> rw [hc] <;>
    refine ⟨_, _, rfl, ?_⟩
  · cases negative <;> decide
  · rw [toNat_mediumTag negative he]
    split_ifs <;> omega
  · cases negative <;> decide

/-! ### Decoding -/

theorem idxOf_terminator {m : List UInt8} (h : decimalTerminator ∉ m) (s : List UInt8) :
    (m ++ decimalTerminator :: s).idxOf? decimalTerminator = some m.length := by
  induction m with
  | nil => simp [idxOf?_cons]
  | cons b m ih =>
    have hb : b ≠ decimalTerminator := fun h0 => h (h0 ▸ mem_cons_self)
    rw [cons_append, idxOf?_cons, if_neg (by simpa using hb), ih fun hm => h (mem_cons_of_mem _ hm)]
    rfl

/-- The terminator does not occur in a mantissa, complemented or not. -/
theorem findDecimalTerminator_signed (x : Normalized 100) (s : List UInt8) :
    findDecimalTerminator (signed negative (mantissa x.digits) ++ decimalTerminator :: s) =
      .ok (signed negative (mantissa x.digits)).length := by
  have hnot : decimalTerminator ∉ signed negative (mantissa x.digits) := by
    cases negative with
    | false => exact zero_notMem_mantissa x.trimmed
    | true => exact zero_notMem_complement x.trimmed
  rw [findDecimalTerminator, idxOf_terminator hnot]

theorem decodeMantissa_signed (x : Normalized 100) (s : List UInt8) :
    decodeMantissa negative (signed negative (mantissa x.digits) ++ decimalTerminator :: s) =
      .ok (mantissa x.digits, s) := by
  have hdrop : (signed negative (mantissa x.digits) ++ decimalTerminator :: s).drop
      ((signed negative (mantissa x.digits)).length + 1) = s := by
    rw [← drop_drop, drop_left]
    rfl
  rw [decodeMantissa, findDecimalTerminator_signed]
  simp only [bind, Except.bind, take_left, hdrop]
  rw [show (if negative = true then onesComplement (signed negative (mantissa x.digits))
    else signed negative (mantissa x.digits)) = signed negative (signed negative
      (mantissa x.digits)) from rfl, signed_signed]

theorem reads_encodeExp (expAscending : Bool) (exp : UInt64) :
    Reads (decodeExp expAscending) (encodeExp expAscending exp) exp := by
  cases expAscending with
  | false => exact reads_uvarintDescending exp
  | true => exact reads_uvarintAscending exp

theorem toInt_ofInt {e : Int} (h : -2 ^ 63 ≤ e) (h' : e < 2 ^ 63) :
    (UInt64.ofInt e).toInt64.toInt = e := by
  have hmod : (e % 2 ^ 64).bmod (2 ^ 64) = e.bmod (2 ^ 64) := Int.emod_bmod e (2 ^ 64)
  rw [UInt64.ofInt, UInt64.toInt64_ofNat', Int64.toInt_ofNat',
    Int.toNat_of_nonneg (Int.emod_nonneg _ (by norm_num))]
  exact hmod.trans (Int.bmod_eq_of_le (by omega) (by omega))

theorem decodeEandM_small (exp : UInt64) (x : Normalized 100) (s : List UInt8) :
    decodeEandM (smallTag negative) (encodeExp negative exp ++
        (signed negative (mantissa x.digits) ++ decimalTerminator :: s)) =
      .ok (negative, (-exp).toInt64.toInt, mantissa x.digits, s) := by
  have htag : ∀ c, decodeEandM (smallTag negative) c =
      decodeSmallNumber negative c >>= fun r => .ok (negative, r) := by
    intro c
    cases negative <;> rfl
  rw [htag, decodeSmallNumber, reads_encodeExp]
  simp only [bind, Except.bind, decodeMantissa_signed]

theorem decodeEandM_medium {e : Int} (he : 0 ≤ e ∧ e ≤ 10)
    (x : Normalized 100) (s : List UInt8) :
    decodeEandM (mediumTag negative e)
        (signed negative (mantissa x.digits) ++ decimalTerminator :: s) =
      .ok (negative, e, mantissa x.digits, s) := by
  obtain ⟨h₀, he⟩ := he
  have htag : ∀ c, decodeEandM (mediumTag negative e) c =
      decodeMediumNumber negative (mediumTag negative e) c >>= fun r => .ok (negative, r) := by
    intro c
    cases negative <;> interval_cases e <;> rfl
  have hexp : ((if negative then decimalNegMedium - mediumTag negative e
      else mediumTag negative e - decimalPosMedium).toNat : Int) = e := by
    cases negative <;> interval_cases e <;> rfl
  rw [htag, decodeMediumNumber]
  simp only [bind, Except.bind, decodeMantissa_signed, hexp]

theorem decodeEandM_large (exp : UInt64) (x : Normalized 100) (s : List UInt8) :
    decodeEandM (largeTag negative) (encodeExp (!negative) exp ++
        (signed negative (mantissa x.digits) ++ decimalTerminator :: s)) =
      .ok (negative, exp.toInt64.toInt, mantissa x.digits, s) := by
  have htag : ∀ c, decodeEandM (largeTag negative) c =
      decodeLargeNumber negative c >>= fun r => .ok (negative, r) := by
    intro c
    cases negative <;> rfl
  rw [htag, decodeLargeNumber, reads_encodeExp]
  simp only [bind, Except.bind, decodeMantissa_signed]

/-- The mantissa is read back and what follows is left; so is the exponent if it fits. -/
theorem decodeEandM_numberCode {t : UInt8} {c : List UInt8} (h : numberCode negative x = t :: c)
    (s : List UInt8) : ∃ e, decodeEandM t (c ++ s) = .ok (negative, e, mantissa x.digits, s) ∧
      (Fits x → e = x.exponent) := by
  rcases expCode_cases negative x.exponent with ⟨-, hc⟩ | ⟨he, hc⟩ | ⟨-, hc⟩ <;>
    simp only [numberCode, hc, cons_append, nil_append, cons.injEq] at h <;>
    obtain ⟨rfl, rfl⟩ := h <;> simp only [append_assoc, singleton_append]
  · refine ⟨_, decodeEandM_small negative _ x s, fun hx => ?_⟩
    rw [UInt64.ofInt_neg, neg_neg, toInt_ofInt hx.1 hx.2]
  · exact ⟨_, decodeEandM_medium negative he x s, fun _ => rfl⟩
  · exact ⟨_, decodeEandM_large negative _ x s, fun hx => toInt_ofInt hx.1 hx.2⟩

end Numbers

/-! ## Decimals -/

variable {d : Decimal}

namespace Decimal

/-- The size of a finite decimal. -/
def magnitude (d : Decimal) : ℚ := d.coeff * (10 : ℚ) ^ d.exponent.toInt

/-- The number that a finite decimal is. -/
def rational (d : Decimal) : ℚ := if d.negative then - d.magnitude else d.magnitude

/-- What a decimal stands for: not a number, the infinities, and the rationals between them,
in this order. -/
def value (d : Decimal) : WithBot (WithBot (WithTop ℚ)) :=
  match d.form with
  | .nan | .nanSignaling => ⊥
  | .infinite => if d.negative then ((⊥ : WithBot (WithTop ℚ)) : WithBot _) else (⊤ : WithTop ℚ)
  | .finite => (d.rational : WithTop ℚ)

theorem magnitude_pos (h : d.coeff ≠ 0) : 0 < d.magnitude := by
  unfold magnitude
  positivity

theorem rational_zero (h : d.coeff = 0) : d.rational = 0 := by
  simp [rational, magnitude, h]

section Values

variable {x y d : Decimal}

theorem value_nan (h : d.form = .nan) : d.value = ⊥ := by
  simp only [value, h]

theorem value_negativeInfinity (h : d.form = .infinite) (hneg : d.negative = true) :
    d.value = ((⊥ : WithBot (WithTop ℚ)) : WithBot _) := by
  simp only [value, h, hneg, if_true]

theorem value_infinity (h : d.form = .infinite) (hneg : d.negative = false) :
    d.value = (⊤ : WithTop ℚ) := by
  simp only [value, h, hneg, Bool.false_eq_true, if_false]

theorem value_finite (h : d.form = .finite) : d.value = (d.rational : WithTop ℚ) := by
  simp only [value, h]

theorem value_lt_iff_rational (hx : x.form = .finite) (hy : y.form = .finite) :
    x.value < y.value ↔ x.rational < y.rational := by
  rw [value_finite hx, value_finite hy, WithBot.coe_lt_coe, WithBot.coe_lt_coe,
    WithTop.coe_lt_coe]

theorem value_eq_iff_rational (hx : x.form = .finite) (hy : y.form = .finite) :
    x.value = y.value ↔ x.rational = y.rational := by
  rw [value_finite hx, value_finite hy, WithBot.coe_inj, WithBot.coe_inj, WithTop.coe_inj]

end Values

end Decimal

/-! ### The codes of what is not a number other than zero -/

section Special

variable {d : Decimal} (invert : Bool)

theorem encodeDecimal_nan (h : d.form = .nan) :
    encodeDecimal d invert = .ok [if invert then decimalNaNDesc else decimalNaN] := by
  have hzero : d.isZero = false := by simp [isZero, h]
  simp only [encodeDecimal, hzero, h]
  rfl

theorem encodeDecimal_infinite (h : d.form = .infinite) : encodeDecimal d invert =
      .ok [if d.negative != invert then decimalNegativeInfinity else decimalInfinity] := by
  have hzero : d.isZero = false := by simp [isZero, h]
  simp only [encodeDecimal, hzero, h]
  rfl

theorem encodeDecimal_zero (h : d.form = .finite) (h₀ : d.coeff = 0) :
    encodeDecimal d invert = .ok [decimalZero] := by
  have hzero : d.isZero = true := by simp [isZero, h, h₀]
  simp only [encodeDecimal, hzero]
  rfl

end Special

/-- The decimals that can be written: all but the signalling not-a-number. -/
inductive Kind : Decimal → Nat → Prop
  | nan {d : Decimal} (hform : d.form = .nan) : Kind d 0
  | negativeInfinity {d : Decimal} (hform : d.form = .infinite) (hneg : d.negative = true) :
      Kind d 1
  | negativeNumber {d : Decimal} (hform : d.form = .finite) (hcoeff : d.coeff ≠ 0)
      (hneg : d.negative = true) : Kind d 2
  | zero {d : Decimal} (hform : d.form = .finite) (hcoeff : d.coeff = 0) : Kind d 3
  | positiveNumber {d : Decimal} (hform : d.form = .finite) (hcoeff : d.coeff ≠ 0)
      (hneg : d.negative = false) : Kind d 4
  | infinity {d : Decimal} (hform : d.form = .infinite) (hneg : d.negative = false) : Kind d 5

theorem exists_kind (h : d.form ≠ .nanSignaling) : ∃ r, Kind d r := by
  cases hform : d.form with
  | nanSignaling => exact absurd hform h
  | nan => exact ⟨0, .nan hform⟩
  | infinite =>
    cases hneg : d.negative with
    | true => exact ⟨1, .negativeInfinity hform hneg⟩
    | false => exact ⟨5, .infinity hform hneg⟩
  | finite =>
    by_cases hcoeff : d.coeff = 0
    · exact ⟨3, .zero hform hcoeff⟩
    · cases hneg : d.negative with
      | true => exact ⟨2, .negativeNumber hform hcoeff hneg⟩
      | false => exact ⟨4, .positiveNumber hform hcoeff hneg⟩

/-- The value of each kind. -/
theorem Kind.value_eq {r : Nat} (h : Kind d r) : (r = 0 ∧ d.value = ⊥) ∨
    (r = 1 ∧ d.value = ((⊥ : WithBot (WithTop ℚ)) : WithBot _)) ∨
    (r = 2 ∧ ∃ q : ℚ, q < 0 ∧ d.value = (q : WithTop ℚ)) ∨
    (r = 3 ∧ d.value = ((0 : ℚ) : WithTop ℚ)) ∨
    (r = 4 ∧ ∃ q : ℚ, 0 < q ∧ d.value = (q : WithTop ℚ)) ∨
    (r = 5 ∧ d.value = (⊤ : WithTop ℚ)) := by
  cases h with
  | nan hform => simp [value_nan hform]
  | negativeInfinity hform hneg => simp [value_negativeInfinity hform hneg]
  | negativeNumber hform hcoeff hneg =>
    have hpos := magnitude_pos hcoeff
    refine .inr (.inr (.inl ⟨rfl, d.rational, ?_, value_finite hform⟩))
    simpa [rational, hneg] using hpos
  | zero hform hcoeff =>
    simp [value_finite hform, rational_zero hcoeff]
  | positiveNumber hform hcoeff hneg =>
    have hpos := magnitude_pos hcoeff
    refine .inr (.inr (.inr (.inr (.inl ⟨rfl, d.rational, ?_, value_finite hform⟩))))
    simpa [rational, hneg] using hpos
  | infinity hform hneg =>
    exact .inr (.inr (.inr (.inr (.inr ⟨rfl, value_infinity hform hneg⟩))))

section Kinds

variable {x y d : Decimal} {r r' : Nat}

/-- The kinds are numbered in the order of their values. -/
theorem Kind.value_lt (hx : Kind x r) (hy : Kind y r') (h : r < r') : x.value < y.value := by
  -- a table of the pairs of kinds
  obtain ⟨rfl, hv⟩ | ⟨rfl, hv⟩ | ⟨rfl, q, hq, hv⟩ | ⟨rfl, hv⟩ | ⟨rfl, q, hq, hv⟩ | ⟨rfl, hv⟩ :=
    hx.value_eq <;>
  obtain ⟨rfl, hw⟩ | ⟨rfl, hw⟩ | ⟨rfl, q', hq', hw⟩ | ⟨rfl, hw⟩ | ⟨rfl, q', hq', hw⟩ |
    ⟨rfl, hw⟩ := hy.value_eq <;>
  first
    | omega
    | rw [hv, hw]
      simp only [WithBot.coe_lt_coe, WithTop.coe_lt_coe, WithBot.bot_lt_coe,
        WithTop.coe_lt_top] <;> linarith

theorem Kind.rank_le_of_value_le (hx : Kind x r) (hy : Kind y r') (h : x.value ≤ y.value) :
    r ≤ r' := by
  by_contra hlt
  exact absurd (hy.value_lt hx (by omega)) h.not_gt

theorem Kind.eq_of_value_eq (hx : Kind x r) (hy : Kind y r') (h : x.value = y.value) : r = r' :=
  le_antisymm (hx.rank_le_of_value_le hy h.le) (hy.rank_le_of_value_le hx h.ge)

/-! ### Codes of the kinds -/

/-- The kind a tag belongs to. -/
def tagRank (t : UInt8) : Nat :=
  if t.toNat ≤ 24 then 0
  else if t.toNat ≤ 25 then 1
  else if t.toNat ≤ 38 then 2
  else if t.toNat ≤ 39 then 3
  else if t.toNat ≤ 52 then 4
  else if t.toNat ≤ 53 then 5
  else 6

theorem tagRank_range (t : UInt8) :
    (t.toNat ≤ 24 ∧ tagRank t = 0) ∨ (24 < t.toNat ∧ t.toNat ≤ 25 ∧ tagRank t = 1) ∨
      (25 < t.toNat ∧ t.toNat ≤ 38 ∧ tagRank t = 2) ∨
      (38 < t.toNat ∧ t.toNat ≤ 39 ∧ tagRank t = 3) ∨
      (39 < t.toNat ∧ t.toNat ≤ 52 ∧ tagRank t = 4) ∨
      (52 < t.toNat ∧ t.toNat ≤ 53 ∧ tagRank t = 5) ∨ (53 < t.toNat ∧ tagRank t = 6) := by
  unfold tagRank
  split_ifs <;> omega

theorem tagRank_mono {t t' : UInt8} (h : t.toNat ≤ t'.toNat) : tagRank t ≤ tagRank t' := by
  have ht' := tagRank_range t'
  rcases tagRank_range t with ht | ht | ht | ht | ht | ht | ht <;> omega

theorem lt_of_tagRank_lt {t t' : UInt8} (h : tagRank t < tagRank t') : t.toNat < t'.toNat := by
  by_contra hle
  exact absurd (tagRank_mono (not_lt.mp hle)) (not_le.mpr h)

/-- The coefficient prints in fewer than `2 ^ 62` digits, more than any byte slice holds, so
that counting them does not overflow an `int`. -/
def Decimal.Representable (d : Decimal) : Prop := d.form = .finite → numDigits d.coeff < 2 ^ 62

theorem exists_normalized (hform : d.form = .finite) (hcoeff : d.coeff ≠ 0) :
    ∃ n : Normalized 100, (d.Representable → Fits n) ∧ n.value = d.magnitude ∧
      decimalEandM d = (n.exponent, mantissa n.digits) ∧
      ∀ invert, encodeDecimal d invert = .ok (numberCode (d.negative != invert) n) := by
  obtain ⟨n, hEandM, hvalue⟩ := decimalEandM_spec hcoeff
  have hzero : d.isZero = false := by simp [isZero, hcoeff]
  refine ⟨n, fun hd => ?_, hvalue, hEandM, fun invert => ?_⟩
  · have hexp : n.exponent = toE100 (d.exponent.toInt + numDigits d.coeff) := by
      have := congrArg Prod.fst hEandM
      rw [decimalEandM_eq, alignedDigits_eq hcoeff rfl] at this
      exact this.symm
    have hlow := d.exponent.le_toInt
    have hhigh := d.exponent.toInt_lt
    have hhalf := toE100_mul_two (d.exponent.toInt + numDigits d.coeff)
    have hdigits := hd hform
    exact ⟨by omega, by omega⟩
  · simp only [encodeDecimal, hzero, hform, hEandM, encodeEandM_eq, numberCode]
    rfl

/-- The first byte of a code tells the kind, in the reverse order for a descending key. -/
theorem Kind.encode_head (h : Kind d r) (invert : Bool) :
    ∃ t c, encodeDecimal d invert = .ok (t :: c) ∧
      tagRank t = if invert then 6 - r else r := by
  have htag : ∀ {neg : Bool} {t : UInt8},
      (if neg then 26 ≤ t.toNat ∧ t.toNat ≤ 38 else 40 ≤ t.toNat ∧ t.toNat ≤ 52) →
        tagRank t = if neg then 2 else 4 := by
    intro neg t ht
    unfold tagRank
    cases neg with
    | true =>
      simp only [if_true] at ht ⊢
      split_ifs <;> omega
    | false =>
      simp only [Bool.false_eq_true, if_false] at ht ⊢
      split_ifs <;> omega
  have hnumber : d.form = .finite → d.coeff ≠ 0 → ∃ t c, encodeDecimal d invert = .ok (t :: c) ∧
      tagRank t = if d.negative != invert then 2 else 4 := by
    intro hform hcoeff
    obtain ⟨n, -, -, -, hcode⟩ := exists_normalized hform hcoeff
    obtain ⟨t, c, hhead, ht⟩ := numberCode_head (d.negative != invert) n
    exact ⟨t, c, (hcode invert).trans (congrArg _ hhead), htag ht⟩
  cases h with
  | nan hform =>
    refine ⟨_, _, encodeDecimal_nan invert hform, ?_⟩
    cases invert <;> rfl
  | negativeInfinity hform hneg | infinity hform hneg =>
    refine ⟨_, _, encodeDecimal_infinite invert hform, ?_⟩
    rw [hneg]
    cases invert <;> rfl
  | negativeNumber hform hcoeff hneg | positiveNumber hform hcoeff hneg =>
    obtain ⟨t, c, hcode, ht⟩ := hnumber hform hcoeff
    refine ⟨t, c, hcode, ht.trans ?_⟩
    rw [hneg]
    cases invert <;> rfl
  | zero hform hcoeff =>
    refine ⟨_, _, encodeDecimal_zero invert hform hcoeff, ?_⟩
    cases invert <;> rfl

/-- Codes of decimals of different kinds. -/
theorem Kind.precedes_of_lt (hx : Kind x r) (hy : Kind y r') (h : r < r') (invert : Bool) :
    ∃ a b, encodeDecimal x invert = .ok a ∧ encodeDecimal y invert = .ok b ∧
      PrecedesAs invert a b := by
  have hr : r' ≤ 5 := by cases hy <;> decide
  obtain ⟨t, c, hc, ht⟩ := hx.encode_head invert
  obtain ⟨t', c', hc', ht'⟩ := hy.encode_head invert
  refine ⟨_, _, hc, hc', PrecedesAs.head ?_⟩
  split_ifs at ht ht' ⊢
  · exact lt_of_tagRank_lt (by omega)
  · exact lt_of_tagRank_lt (by omega)

/-- Codes of numbers of one sign. -/
theorem precedes_of_magnitude_lt (hx : x.form = .finite) (hy : y.form = .finite)
    (hx₀ : x.coeff ≠ 0) (hy₀ : y.coeff ≠ 0) (hxr : x.Representable) (hyr : y.Representable)
    {negative : Bool} (hneg : x.negative = negative) (hneg' : y.negative = negative)
    (h : x.magnitude < y.magnitude) (invert : Bool) :
    ∃ a b, encodeDecimal x invert = .ok a ∧ encodeDecimal y invert = .ok b ∧
      PrecedesAs (negative != invert) a b := by
  obtain ⟨n, hn, hnv, -, hcode⟩ := exists_normalized hx hx₀
  obtain ⟨n', hn', hnv', -, hcode'⟩ := exists_normalized hy hy₀
  rw [← hnv, ← hnv'] at h
  rw [hneg] at hcode
  rw [hneg'] at hcode'
  exact ⟨_, _, hcode invert, hcode' invert, numberCode_precedes _ (hn hxr) (hn' hyr) h⟩

/-- The codes of decimals sort as the decimals, in a descending key the other way round. -/
theorem encodeDecimal_precedes (hx : Kind x r) (hy : Kind y r') (hxr : x.Representable)
    (hyr : y.Representable) (h : x.value < y.value) (invert : Bool) :
    ∃ a b, encodeDecimal x invert = .ok a ∧ encodeDecimal y invert = .ok b ∧
      PrecedesAs invert a b := by
  rcases (hx.rank_le_of_value_le hy h.le).lt_or_eq with hlt | rfl
  · exact hx.precedes_of_lt hy hlt invert
  · cases hx with
    | nan hform => cases hy with
      | nan hform' =>
        rw [value_nan hform, value_nan hform'] at h
        exact absurd h (lt_irrefl _)
    | negativeInfinity hform hneg => cases hy with
      | negativeInfinity hform' hneg' =>
        rw [value_negativeInfinity hform hneg, value_negativeInfinity hform' hneg'] at h
        exact absurd h (lt_irrefl _)
    | zero hform hcoeff => cases hy with
      | zero hform' hcoeff' =>
        rw [value_lt_iff_rational hform hform', rational_zero hcoeff, rational_zero hcoeff'] at h
        exact absurd h (lt_irrefl _)
    | infinity hform hneg => cases hy with
      | infinity hform' hneg' =>
        rw [value_infinity hform hneg, value_infinity hform' hneg'] at h
        exact absurd h (lt_irrefl _)
    | negativeNumber hform hcoeff hneg => cases hy with
      | negativeNumber hform' hcoeff' hneg' =>
        rw [value_lt_iff_rational hform hform'] at h
        have hlt : y.magnitude < x.magnitude := by simpa [rational, hneg, hneg'] using h
        obtain ⟨b, a, hb, ha, hprec⟩ :=
          precedes_of_magnitude_lt hform' hform hcoeff' hcoeff hyr hxr hneg' hneg hlt invert
        refine ⟨a, b, ha, hb, ?_⟩
        cases invert <;> exact hprec
    | positiveNumber hform hcoeff hneg => cases hy with
      | positiveNumber hform' hcoeff' hneg' =>
        rw [value_lt_iff_rational hform hform'] at h
        have hlt : x.magnitude < y.magnitude := by simpa [rational, hneg, hneg'] using h
        obtain ⟨a, b, ha, hb, hprec⟩ :=
          precedes_of_magnitude_lt hform hform' hcoeff hcoeff' hxr hyr hneg hneg' hlt invert
        exact ⟨a, b, ha, hb, by rwa [Bool.false_bne] at hprec⟩

/-- Equal decimals have equal codes. -/
theorem encodeDecimal_eq_of_value_eq (hx : Kind x r) (hy : Kind y r') (h : x.value = y.value)
    (invert : Bool) :
    encodeDecimal x invert = encodeDecimal y invert := by
  obtain rfl := hx.eq_of_value_eq hy h
  have hnumber : x.form = .finite → y.form = .finite → x.coeff ≠ 0 → y.coeff ≠ 0 →
      x.negative = y.negative → encodeDecimal x invert = encodeDecimal y invert := by
    intro hform hform' hcoeff hcoeff' hneg
    obtain ⟨n, -, hnv, -, hcode⟩ := exists_normalized hform hcoeff
    obtain ⟨n', -, hnv', -, hcode'⟩ := exists_normalized hform' hcoeff'
    rw [value_eq_iff_rational hform hform', rational, rational, hneg] at h
    have hmag : x.magnitude = y.magnitude := by
      cases hsign : y.negative with
      | false | true => simpa [hsign] using h
    rw [hcode, hcode', hneg, numberCode_eq_of_value_eq _ (hnv.trans (hmag.trans hnv'.symm))]
  cases hx with
  | nan hform => cases hy with
    | nan hform' => rw [encodeDecimal_nan invert hform, encodeDecimal_nan invert hform']
  | negativeInfinity hform hneg => cases hy with
    | negativeInfinity hform' hneg' =>
      rw [encodeDecimal_infinite invert hform, encodeDecimal_infinite invert hform', hneg, hneg']
  | zero hform hcoeff => cases hy with
    | zero hform' hcoeff' =>
      rw [encodeDecimal_zero invert hform hcoeff, encodeDecimal_zero invert hform' hcoeff']
  | infinity hform hneg => cases hy with
    | infinity hform' hneg' =>
      rw [encodeDecimal_infinite invert hform, encodeDecimal_infinite invert hform', hneg, hneg']
  | negativeNumber hform hcoeff hneg => cases hy with
    | negativeNumber hform' hcoeff' hneg' =>
      exact hnumber hform hform' hcoeff hcoeff' (hneg.trans hneg'.symm)
  | positiveNumber hform hcoeff hneg => cases hy with
    | positiveNumber hform' hcoeff' hneg' =>
      exact hnumber hform hform' hcoeff hcoeff' (hneg.trans hneg'.symm)

end Kinds

/-! ## Round trip -/

section RoundTrip

variable {d : Decimal} {r : Nat}

/-- What the decoder makes of the code of a decimal. -/
def Decimal.decoded (d : Decimal) : Decimal :=
  match d.form with
  | .nan | .nanSignaling => { form := .nan }
  | .infinite => { form := .infinite, negative := d.negative }
  | .finite => if d.coeff = 0 then {} else reduced d d.negative

/-- None of the tags of numbers is that of another decimal. -/
theorem decodeDecimal_number {t : UInt8} {buf : List UInt8} (invert : Bool)
    (h : 26 ≤ t.toNat ∧ t.toNat ≤ 38 ∨ 40 ≤ t.toNat ∧ t.toNat ≤ 52) :
    decodeDecimal invert (t :: buf) = (do
      let (negative, e, m, r) ← decodeEandM t buf
      let d ← makeDecimalFromMandE (negative != invert) e m
      .ok (r, d)) := by
  have hne : ∀ t' : UInt8, t'.toNat < 26 ∨ t'.toNat = 39 ∨ 52 < t'.toNat → t ≠ t' := by
    intro t' ht' heq
    rw [heq] at h
    omega
  simp only [decodeDecimal]
  rw [if_neg (by rw [not_or]; exact ⟨hne _ (by decide), hne _ (by decide)⟩),
    if_neg (hne _ (by decide)), if_neg (hne _ (by decide)), if_neg (hne _ (by decide))]

/-- The code of a number is read as a number of that sign, and what follows is left. -/
theorem decodeDecimal_numberCode (negative invert : Bool) (n : Normalized 100) (s : List UInt8) :
    ∃ e, (Fits n → e = n.exponent) ∧
      decodeDecimal invert (numberCode negative n ++ s) = (do
        let d ← makeDecimalFromMandE (negative != invert) e (mantissa n.digits)
        .ok (s, d)) := by
  obtain ⟨t, c, hhead, ht⟩ := numberCode_head negative n
  obtain ⟨e, hdecode, hfits⟩ := decodeEandM_numberCode negative hhead s
  have htag : 26 ≤ t.toNat ∧ t.toNat ≤ 38 ∨ 40 ≤ t.toNat ∧ t.toNat ≤ 52 := by
    split_ifs at ht
    · exact .inl ht
    · exact .inr ht
  refine ⟨e, hfits, ?_⟩
  rw [hhead, cons_append, decodeDecimal_number invert htag, hdecode]
  rfl

theorem bne_bne_self (a b : Bool) : ((a != b) != b) = a := by
  cases a <;> cases b <;> rfl

/-- A decimal of a kind without a mantissa is read back. -/
theorem Kind.reads_special (h : Kind d r) (hr : r ≠ 2 ∧ r ≠ 4) (invert : Bool) :
    ∃ c, encodeDecimal d invert = .ok c ∧ Reads (decodeDecimal invert) c d.decoded := by
  cases h with
  | nan hform =>
    refine ⟨_, encodeDecimal_nan invert hform, fun s => ?_⟩
    simp only [decoded, hform]
    cases invert <;> rfl
  | negativeInfinity hform hneg | infinity hform hneg =>
    refine ⟨_, encodeDecimal_infinite invert hform, fun s => ?_⟩
    simp only [decoded, hform, hneg]
    cases invert <;> rfl
  | negativeNumber hform hcoeff hneg => exact absurd rfl hr.1
  | zero hform hcoeff =>
    refine ⟨_, encodeDecimal_zero invert hform hcoeff, fun s => ?_⟩
    simp only [decoded, hform, if_pos hcoeff]
    cases invert <;> rfl
  | positiveNumber hform hcoeff hneg => exact absurd rfl hr.2

/-- A decimal of another kind is a number. -/
theorem Kind.number (h : Kind d r) (hr : ¬ (r ≠ 2 ∧ r ≠ 4)) : d.form = .finite ∧ d.coeff ≠ 0 := by
  cases h with
  | negativeNumber hform hcoeff _ | positiveNumber hform hcoeff _ => exact ⟨hform, hcoeff⟩
  | _ => exact absurd ⟨by decide, by decide⟩ hr

theorem decodeDecimal_encodeDecimal (h : Kind d r) (hd : d.Representable) (invert : Bool) :
    ∃ c, encodeDecimal d invert = .ok c ∧ Reads (decodeDecimal invert) c d.decoded := by
  by_cases hr : r ≠ 2 ∧ r ≠ 4
  · exact h.reads_special hr invert
  · obtain ⟨hform, hcoeff⟩ := h.number hr
    obtain ⟨n, hn, -, hEandM, hcode⟩ := exists_normalized hform hcoeff
    refine ⟨_, hcode invert, fun s => ?_⟩
    obtain ⟨e, he, hdecode⟩ := decodeDecimal_numberCode (d.negative != invert) invert n s
    obtain rfl := he (hn hd)
    have hmake := makeDecimalFromMandE_decimalEandM hcoeff d.negative
    rw [hEandM] at hmake
    rw [hdecode, bne_bne_self, hmake]
    simp only [bind, Except.bind, decoded, hform, if_neg hcoeff]

/-- The exponent that takes up the trailing zeros of the coefficient fits an `int32`. -/
def Decimal.ReducedFits (d : Decimal) : Prop :=
  d.form = .finite → d.exponent.toInt + trailingZeros d.coeff < 2 ^ 31

theorem coeff_reduced (n : Nat) :
    (Nat.ofDigits 10 (significant n).reverse : ℕ) * (10 : ℚ) ^ trailingZeros n = n := by
  have hfraction := fraction_mul_pow (b := 10) (by decide) (significant n)
  have hlen := length_significant n
  push_cast at hfraction
  rw [coeff_eq n, ← hlen, pow_add, ← mul_assoc, hfraction]
  push_cast
  rfl

theorem magnitude_reduced (hform : d.form = .finite) (hfits : d.ReducedFits) (negative : Bool) :
    (reduced d negative).magnitude = d.magnitude := by
  have hten : (10 : ℚ) ≠ 0 := by norm_num
  have hlow := d.exponent.le_toInt
  have hhigh := hfits hform
  have hexp : (Int32.ofInt (d.exponent.toInt + trailingZeros d.coeff)).toInt =
      d.exponent.toInt + trailingZeros d.coeff :=
    Int32.toInt_ofInt_of_le (by omega) hhigh
  simp only [magnitude, reduced, hexp]
  rw [← coeff_reduced d.coeff, add_comm, zpow_add₀ hten, zpow_natCast, ← mul_assoc]

theorem Kind.value_decoded (h : Kind d r) (hfits : d.ReducedFits) : d.decoded.value = d.value := by
  have hnumber : d.form = .finite → d.coeff ≠ 0 → d.decoded.value = d.value := by
    intro hform hcoeff
    simp only [decoded, hform, if_neg hcoeff]
    rw [value_eq_iff_rational rfl hform, rational, rational, magnitude_reduced hform hfits]
    rfl
  cases h with
  | nan hform | negativeInfinity hform hneg | infinity hform hneg =>
    simp only [decoded, value, hform]
  | negativeNumber hform hcoeff hneg | positiveNumber hform hcoeff hneg =>
    exact hnumber hform hcoeff
  | zero hform hcoeff =>
    simp only [decoded, hform, if_pos hcoeff]
    rw [value_eq_iff_rational rfl hform, rational_zero rfl, rational_zero hcoeff]

end RoundTrip

/-! ## Keys of decimals -/

/-- Keys of decimals sort as the decimals in an ascending key and the other way round in a
descending one, equal decimals have equal keys, and a key reads back as its decimal if the
exponent without the trailing zeros of the coefficient fits. -/
theorem decimal_keys {x y : Decimal} (hx : x.form ≠ .nanSignaling) (hy : y.form ≠ .nanSignaling)
    (hxr : x.Representable) (hyr : y.Representable) :
    ∃ ax ay dx dy,
      encodeDecimalAscending x = .ok ax ∧ encodeDecimalAscending y = .ok ay ∧
      encodeDecimalDescending x = .ok dx ∧ encodeDecimalDescending y = .ok dy ∧
      (x.value < y.value → ∀ s t, ax ++ s < ay ++ t ∧ dx ++ s > dy ++ t) ∧
      (x.value = y.value → ax = ay ∧ dx = dy) ∧
      (x.ReducedFits → ∀ s,
        (∃ x', decodeDecimalAscending (ax ++ s) = .ok (s, x') ∧ x'.value = x.value) ∧
        (∃ x', decodeDecimalDescending (dx ++ s) = .ok (s, x') ∧ x'.value = x.value)) := by
  obtain ⟨r, hkx⟩ := exists_kind hx
  obtain ⟨r', hky⟩ := exists_kind hy
  obtain ⟨ax, hax, hreadax⟩ := decodeDecimal_encodeDecimal hkx hxr false
  obtain ⟨ay, hay, -⟩ := decodeDecimal_encodeDecimal hky hyr false
  obtain ⟨dx, hdx, hreaddx⟩ := decodeDecimal_encodeDecimal hkx hxr true
  obtain ⟨dy, hdy, -⟩ := decodeDecimal_encodeDecimal hky hyr true
  refine ⟨ax, ay, dx, dy, hax, hay, hdx, hdy, ?_, ?_, ?_⟩
  · intro hlt s t
    obtain ⟨a, b, ha, hb, hasc⟩ := encodeDecimal_precedes hkx hky hxr hyr hlt false
    obtain ⟨c, d, hc, hd, hdesc⟩ := encodeDecimal_precedes hkx hky hxr hyr hlt true
    obtain rfl := Except.ok.inj (hax.symm.trans ha)
    obtain rfl := Except.ok.inj (hay.symm.trans hb)
    obtain rfl := Except.ok.inj (hdx.symm.trans hc)
    obtain rfl := Except.ok.inj (hdy.symm.trans hd)
    exact ⟨Precedes.append_lt hasc s t, Precedes.append_lt hdesc t s⟩
  · intro heq
    have hasc := encodeDecimal_eq_of_value_eq hkx hky heq false
    have hdesc := encodeDecimal_eq_of_value_eq hkx hky heq true
    rw [hax, hay] at hasc
    rw [hdx, hdy] at hdesc
    exact ⟨Except.ok.inj hasc, Except.ok.inj hdesc⟩
  · intro hfits s
    exact ⟨⟨x.decoded, hreadax s, hkx.value_decoded hfits⟩,
      ⟨x.decoded, hreaddx s, hkx.value_decoded hfits⟩⟩

/-- `-1.50` and `20`. -/
theorem decimal_keys_twenty : ∃ ax ay dx dy,
      encodeDecimalAscending { negative := true, coeff := 150, exponent := -2 } = .ok ax ∧
      encodeDecimalAscending { coeff := 2, exponent := 1 } = .ok ay ∧
      encodeDecimalDescending { negative := true, coeff := 150, exponent := -2 } = .ok dx ∧
      encodeDecimalDescending { coeff := 2, exponent := 1 } = .ok dy ∧
      (∀ s t, ax ++ s < ay ++ t ∧ dx ++ s > dy ++ t) ∧
      ∃ x', decodeDecimalAscending (ax ++ [7]) = .ok ([7], x') ∧
        x'.value = Decimal.value { negative := true, coeff := 150, exponent := -2 } := by
  have hlt : value { negative := true, coeff := 150, exponent := -2 } <
      value { coeff := 2, exponent := 1 } :=
    (Kind.negativeNumber rfl (by decide) rfl).value_lt
      (Kind.positiveNumber rfl (by decide) rfl) (by decide)
  obtain ⟨ax, ay, dx, dy, hax, hay, hdx, hdy, hlt', -, hread⟩ :=
    decimal_keys (x := { negative := true, coeff := 150, exponent := -2 })
      (y := { coeff := 2, exponent := 1 }) (by decide) (by decide)
      (by simp [Representable, numDigits]) (by simp [Representable, numDigits])
  exact ⟨ax, ay, dx, dy, hax, hay, hdx, hdy, hlt' hlt,
    (hread (by simp [ReducedFits, trailingZeros]) [7]).1⟩

/-! ### Trailing zeros that do not fit -/

/-- `10 ^ k` with exponent zero. -/
def powerOfTen (k : Nat) : Decimal := { coeff := 10 ^ k }

theorem digits_powerOfTen (k : Nat) : Nat.digits 10 (10 ^ k) = replicate k 0 ++ [1] := by
  have := Nat.digits_base_pow_mul (b := 10) (k := k) (m := 1) (by decide) (by decide)
  simpa using this

theorem trailingZeros_powerOfTen (k : Nat) : trailingZeros (10 ^ k) = k := by
  rw [trailingZeros, digits_powerOfTen, takeWhile_append_of_pos (by simp)]
  simp

theorem significant_powerOfTen (k : Nat) : significant (10 ^ k) = [1] := by
  rw [significant, digits_powerOfTen, dropWhile_append_of_pos (by simp)]
  rfl

/-- Beyond `2 ^ 31 - 1` zeros the exponent wraps around. -/
theorem decoded_powerOfTen {k : Nat} (hk : k = 2 ^ 31) :
    (powerOfTen k).decoded = { coeff := 1, exponent := Int32.ofInt (2 ^ 31) } := by
  have hne : (powerOfTen k).coeff ≠ 0 := by simp [powerOfTen]
  have hexp : (0 : Int32).toInt + (k : Int) = 2 ^ 31 := by
    rw [show (0 : Int32).toInt = 0 by decide, hk]
    norm_num
  have hone : Nat.ofDigits 10 [1].reverse = 1 := by decide
  show (if (powerOfTen k).coeff = 0 then ({} : Decimal) else reduced (powerOfTen k) false) = _
  rw [if_neg hne]
  simp only [reduced, powerOfTen, trailingZeros_powerOfTen, significant_powerOfTen, hexp, hone]

/-- The number read back is less than one. -/
theorem value_decoded_powerOfTen {k : Nat} (hk : k = 2 ^ 31) :
    (powerOfTen k).decoded.value < (powerOfTen k).value := by
  have hexp : (Int32.ofInt (2 ^ 31)).toInt = - 2 ^ 31 := by decide
  have hzero : (0 : Int32).toInt = 0 := by decide
  have hsmall : (10 : ℚ) ^ (- 2 ^ 31 : Int) < 1 :=
    zpow_lt_one_of_neg₀ (by norm_num) (by norm_num)
  have hlarge : (1 : ℚ) ≤ (10 : ℚ) ^ k := one_le_pow₀ (by norm_num)
  rw [decoded_powerOfTen hk, value_lt_iff_rational rfl rfl]
  simp only [rational, magnitude, powerOfTen, hexp, hzero, Bool.false_eq_true,
    if_false, Nat.cast_one, one_mul, Nat.cast_pow, Nat.cast_ofNat, zpow_zero, mul_one]
  exact hsmall.trans_le hlarge

/-- A coefficient that ends in `2 ^ 31` zeros does not survive its key. -/
theorem decimal_round_trip_wraps :
    ∃ x : Decimal, x.form = .finite ∧ x.exponent = 0 ∧ x.Representable ∧
      ∃ ax, encodeDecimalAscending x = .ok ax ∧
        ∀ s, ∃ x', decodeDecimalAscending (ax ++ s) = .ok (s, x') ∧ x'.value ≠ x.value := by
  obtain ⟨k, hk⟩ : ∃ k : Nat, k = 2 ^ 31 := ⟨_, rfl⟩
  have hne : (powerOfTen k).coeff ≠ 0 := by simp [powerOfTen]
  have hrep : (powerOfTen k).Representable := by
    intro _
    rw [numDigits, powerOfTen, digits_powerOfTen, List.length_append, List.length_replicate, hk]
    decide
  obtain ⟨ax, hax, hread⟩ :=
    decodeDecimal_encodeDecimal (Kind.positiveNumber rfl hne rfl) hrep false
  exact ⟨powerOfTen k, rfl, rfl, hrep, ax, hax, fun s =>
    ⟨_, hread s, (value_decoded_powerOfTen hk).ne⟩⟩

end Cockroach.Encoding
