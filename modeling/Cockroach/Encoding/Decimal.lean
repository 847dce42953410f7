import Cockroach.Encoding.Varint
import Cockroach.Lib.Fractions

/-!
# Decimals in keys (`decimal.go`)

A finite decimal other than zero is written as an exponent of one hundred and a mantissa of
base-100 digits behind the point. Each digit `X` is the byte `2 * X + 1`, the last one
`2 * X`, so that no mantissa is a prefix of another. Negative numbers have the mantissa
complemented.

The coefficient is a `big.Int`; that it prints as its decimal digits and is read back from
them is taken for granted. The digits `'0'` to `'9'` are kept as their values.

* `decimalEandM_spec`: the exponent and the mantissa are those of the normal form of the
  decimal in base 100;
* `makeDecimalFromMandE_packed`: the decoder builds the decimal with the trailing zeros of
  the coefficient moved into the exponent, which it cuts to an `int32`.
-/

namespace Cockroach.Encoding

open Lib List

/-! ## Decimals -/

/-- `apd.Form`. -/
inductive Form where
  | finite
  | infinite
  | nanSignaling
  | nan
  deriving DecidableEq, Repr

/-- `apd.Decimal`: the number `± coeff * 10 ^ exponent` if it is finite. -/
structure Decimal where
  form : Form := .finite
  negative : Bool := false
  exponent : Int32 := 0
  coeff : Nat := 0
  deriving DecidableEq, Repr

/-- `IsZero`. -/
def Decimal.isZero (d : Decimal) : Bool := d.form == .finite && d.coeff == 0

/-! ### Tags -/

def decimalNaN : UInt8 := 24
def decimalNegativeInfinity : UInt8 := 25
def decimalNegLarge : UInt8 := 26
def decimalNegMedium : UInt8 := 37
def decimalNegSmall : UInt8 := 38
def decimalZero : UInt8 := 39
def decimalPosSmall : UInt8 := 40
def decimalPosMedium : UInt8 := 41
def decimalPosLarge : UInt8 := 52
def decimalInfinity : UInt8 := 53
def decimalNaNDesc : UInt8 := 54
def decimalTerminator : UInt8 := 0

/-! ## Exponent and mantissa -/

/-- The digits that a number prints as, the highest first. -/
def printed (n : Nat) : List Nat := (Nat.digits 10 n).reverse

/-- The power of one hundred for a power of ten. -/
def toE100 (e10 : Int) : Int := if e10 ≥ 0 then (e10 + 1) / 2 else Int.tdiv e10 2

/-- `decimalEandM` up to the conversion to base 100: the digits without trailing zeros, with
a leading zero unless the power of ten is even. -/
def alignedDigits (d : Decimal) : Int × List Nat :=
  let tmp := 0 :: printed d.coeff
  let e10 : Int := d.exponent.toInt + (printed d.coeff).length
  let tmp := tmp.rdropWhile (· = 0)
  let e100 := toE100 e10
  (e100, if e100 * 2 = e10 then tmp.tail else tmp)

/-- An even number of digits. -/
def padEven (ds : List Nat) : List Nat := if ds.length % 2 ≠ 0 then ds ++ [0] else ds

def base100 : List Nat → List Nat
  | a :: b :: ds => (10 * a + b) :: base100 ds
  | _ => []

/-- The bytes `2n+1`, the last one `2n`. -/
def mantissa : List Nat → List UInt8
  | [] => []
  | [x] => [UInt8.ofNat (2 * x + 1) - 1]
  | x :: y :: xs => UInt8.ofNat (2 * x + 1) :: mantissa (y :: xs)

/-- `decimalEandM`. -/
def decimalEandM (d : Decimal) : Int × List UInt8 :=
  let (e100, tmp) := alignedDigits d
  (e100, mantissa (base100 (padEven tmp)))

/-! ## Encoder -/

/-- `copy(buf[i:], bs)`. -/
def put (buf : List UInt8) (i : Nat) (bs : List UInt8) : List UInt8 :=
  buf.take i ++ bs ++ buf.drop (i + bs.length)

def onesComplement (b : List UInt8) : List UInt8 := b.map (~~~ ·)

def encodeExp (expAscending : Bool) (exp : UInt64) : List UInt8 :=
  if expAscending then encodeUvarintAscending exp else encodeUvarintDescending exp

/-- `encodeVarExpNumber`. -/
def encodeVarExpNumber (tag : UInt8) (expAscending : Bool) (exp : UInt64) (m encInto : List UInt8) :
    Except Failure (List UInt8) :=
  let n := if expAscending then encLenUvarintAscending exp else encLenUvarintDescending exp
  let l := 1 + n + m.length
  if encInto.length < l + 1 then .error .bufferTooShort
  else
    -- The mantissa is moved first: it may lie in the buffer itself.
    let buf := put encInto (1 + n) m
    let buf := put buf 0 [tag]
    let buf := put buf 1 (encodeExp expAscending exp)
    let buf := put buf l [decimalTerminator]
    .ok (buf.take (l + 1))

/-- `encodeSmallNumber`. -/
def encodeSmallNumber (negative : Bool) (e : Int) (m encInto : List UInt8) :
    Except Failure (List UInt8) :=
  if negative then
    encodeVarExpNumber decimalNegSmall true (UInt64.ofInt (-e)) (onesComplement m) encInto
  else encodeVarExpNumber decimalPosSmall false (UInt64.ofInt (-e)) m encInto

/-- `encodeLargeNumber`. -/
def encodeLargeNumber (negative : Bool) (e : Int) (m encInto : List UInt8) :
    Except Failure (List UInt8) :=
  if negative then
    encodeVarExpNumber decimalNegLarge false (UInt64.ofInt e) (onesComplement m) encInto
  else encodeVarExpNumber decimalPosLarge true (UInt64.ofInt e) m encInto

/-- `encodeMediumNumber`. -/
def encodeMediumNumber (negative : Bool) (e : Int) (m encInto : List UInt8) :
    Except Failure (List UInt8) :=
  let l := 1 + m.length
  if encInto.length < l + 1 then .error .bufferTooShort
  else
    let buf := put encInto 1 m
    let buf :=
      if negative then
        put (put buf 0 [decimalNegMedium - UInt8.ofNat e.toNat]) 1
          (onesComplement ((buf.take l).drop 1))
      else put buf 0 [decimalPosMedium + UInt8.ofNat e.toNat]
    let buf := put buf l [decimalTerminator]
    .ok (buf.take (l + 1))

def maxVarintLen : Nat := 9

/-- `encodeEandM`. -/
def encodeEandM (negative : Bool) (e : Int) (m : List UInt8) : Except Failure (List UInt8) :=
  let buf := List.replicate (m.length + maxVarintLen + 2) 0
  if e < 0 then encodeSmallNumber negative e m buf
  else if e ≤ 10 then encodeMediumNumber negative e m buf
  else encodeLargeNumber negative e m buf

/-- `encodeDecimal`. -/
def encodeDecimal (d : Decimal) (invert : Bool) : Except Failure (List UInt8) :=
  if d.isZero then .ok [decimalZero]
  else
    let neg := d.negative != invert
    match d.form with
    | .infinite => .ok [if neg then decimalNegativeInfinity else decimalInfinity]
    | .nan => .ok [if invert then decimalNaNDesc else decimalNaN]
    | .nanSignaling => .error .unknownForm
    | .finite =>
      let (e, m) := decimalEandM d
      encodeEandM neg e m

/-- `EncodeDecimalAscending`. -/
def encodeDecimalAscending (d : Decimal) : Except Failure (List UInt8) := encodeDecimal d false

/-- `EncodeDecimalDescending`. -/
def encodeDecimalDescending (d : Decimal) : Except Failure (List UInt8) := encodeDecimal d true

/-! ## Decoder -/

/-- The digits of the bytes of a mantissa. -/
def base10 : List UInt8 → Except Failure (List Nat)
  | [] => .ok []
  | v :: m =>
    let t := v.toNat / 2
    if t > 99 then .error (.digitOutOfRange t)
    else do
      let b ← base10 m
      .ok (t / 10 :: t % 10 :: b)

def dropZero (b : List Nat) : List Nat := if b.getLast? = some 0 then b.dropLast else b

/-- `makeDecimalFromMandE`. -/
def makeDecimalFromMandE (negative : Bool) (e : Int) (m : List UInt8) : Except Failure Decimal :=
  if m = [] then .error .emptyMantissa
  else do
    let b ← base10 m
    let b := dropZero b
    let exp : Int := 2 * e - b.length
    .ok { exponent := Int32.ofInt exp, coeff := Nat.ofDigits 10 b.reverse, negative }

/-- `findDecimalTerminator`. -/
def findDecimalTerminator (buf : List UInt8) : Except Failure Nat :=
  match buf.idxOf? decimalTerminator with
  | some idx => .ok idx
  | none => .error (.terminatorMissing decimalTerminator)

def decodeExp (expAscending : Bool) (buf : List UInt8) : Except Failure (List UInt8 × UInt64) :=
  if expAscending then decodeUvarintAscending buf else decodeUvarintDescending buf

/-- What follows the tag and the exponent: the mantissa up to the terminator, and the rest. -/
def decodeMantissa (negative : Bool) (r : List UInt8) :
    Except Failure (List UInt8 × List UInt8) := do
  let idx ← findDecimalTerminator r
  let m := r.take idx
  .ok (if negative then onesComplement m else m, r.drop (idx + 1))

/-- `decodeSmallNumber`: exponent, mantissa, rest. -/
def decodeSmallNumber (negative : Bool) (buf : List UInt8) :
    Except Failure (Int × List UInt8 × List UInt8) := do
  let (r, ex) ← decodeExp negative buf
  let (m, rest) ← decodeMantissa negative r
  .ok ((-ex).toInt64.toInt, m, rest)

/-- `decodeMediumNumber`. -/
def decodeMediumNumber (negative : Bool) (tag : UInt8) (buf : List UInt8) :
    Except Failure (Int × List UInt8 × List UInt8) := do
  let (m, rest) ← decodeMantissa negative buf
  .ok ((if negative then decimalNegMedium - tag else tag - decimalPosMedium).toNat, m, rest)

/-- `decodeLargeNumber`. -/
def decodeLargeNumber (negative : Bool) (buf : List UInt8) :
    Except Failure (Int × List UInt8 × List UInt8) := do
  let (r, ex) ← decodeExp (!negative) buf
  let (m, rest) ← decodeMantissa negative r
  .ok (ex.toInt64.toInt, m, rest)

/-- The exponent and the mantissa of a finite decimal other than zero, by its tag. -/
def decodeEandM (tag : UInt8) (buf : List UInt8) :
    Except Failure (Bool × Int × List UInt8 × List UInt8) :=
  if tag = decimalNegLarge then do .ok (true, ← decodeLargeNumber true buf)
  else if tag > decimalNegLarge ∧ tag ≤ decimalNegMedium then
    do .ok (true, ← decodeMediumNumber true tag buf)
  else if tag = decimalNegSmall then do .ok (true, ← decodeSmallNumber true buf)
  else if tag = decimalPosLarge then do .ok (false, ← decodeLargeNumber false buf)
  else if tag ≥ decimalPosMedium ∧ tag < decimalPosLarge then
    do .ok (false, ← decodeMediumNumber false tag buf)
  else if tag = decimalPosSmall then do .ok (false, ← decodeSmallNumber false buf)
  else .error (.unknownPrefix (tag :: buf))

/-- `decodeDecimal`. -/
def decodeDecimal (invert : Bool) : List UInt8 → Except Failure (List UInt8 × Decimal)
  | [] => .error .indexOutOfRange
  | tag :: buf =>
    if tag = decimalNaN ∨ tag = decimalNaNDesc then .ok (buf, { form := .nan })
    else if tag = decimalInfinity then .ok (buf, { form := .infinite, negative := invert })
    else if tag = decimalNegativeInfinity then
      .ok (buf, { form := .infinite, negative := !invert })
    else if tag = decimalZero then .ok (buf, {})
    else do
      let (negative, e, m, r) ← decodeEandM tag buf
      let d ← makeDecimalFromMandE (negative != invert) e m
      .ok (r, d)

/-- `DecodeDecimalAscending`. -/
def decodeDecimalAscending (buf : List UInt8) : Except Failure (List UInt8 × Decimal) :=
  decodeDecimal false buf

/-- `DecodeDecimalDescending`. -/
def decodeDecimalDescending (buf : List UInt8) : Except Failure (List UInt8 × Decimal) :=
  decodeDecimal true buf

/-! ## Digits in pairs -/

/-- The base-100 digits of digits behind the point. -/
def pairUp : List Nat → List Nat
  | [] => []
  | [a] => [10 * a]
  | a :: b :: ds => (10 * a + b) :: pairUp ds

theorem padEven_cons_cons (a b : Nat) (ds : List Nat) :
    padEven (a :: b :: ds) = a :: b :: padEven ds := by
  simp only [padEven, length_cons, Nat.add_assoc, Nat.add_mod_right]
  split_ifs <;> rfl

theorem base100_padEven (ds : List Nat) : base100 (padEven ds) = pairUp ds := by
  induction ds using pairUp.induct with
  | case1 => rfl
  | case2 a => rfl
  | case3 a b ds ih => rw [padEven_cons_cons, base100, ih, pairUp]

theorem fraction_pairUp (ds : List Nat) : fraction 100 (pairUp ds) = fraction 10 ds := by
  induction ds using pairUp.induct with
  | case1 => rfl
  | case2 a =>
    simp only [pairUp, fraction_cons, fraction_nil]
    push_cast
    ring
  | case3 a b ds ih =>
    simp only [pairUp, fraction_cons, ih]
    push_cast
    ring

variable {ds : List Nat} {xs : List Nat} {d : Decimal}

theorem pairUp_ne_nil (h : ds ≠ []) : pairUp ds ≠ [] := by
  cases ds with
  | nil => exact absurd rfl h
  | cons a ds => cases ds <;> exact cons_ne_nil _ _

theorem trimmed_pairUp (h : Trimmed 10 ds) : Trimmed 100 (pairUp ds) := by
  induction ds using pairUp.induct with
  | case1 => exact ⟨nofun, nofun⟩
  | case2 a =>
    have ha := h.digit_lt a (by simp)
    have hne : a ≠ 0 := fun h0 => h.last_ne (by simp [h0])
    refine ⟨?_, ?_⟩
    · simp only [pairUp, mem_singleton]
      omega
    · simp only [pairUp, getLast?_singleton, ne_eq, Option.some.injEq]
      omega
  | case3 a b ds ih =>
    have ha := h.digit_lt a (by simp)
    have hb := h.digit_lt b (by simp)
    have htail := ih h.tail.tail
    refine ⟨?_, ?_⟩
    · intro d hd
      rcases mem_cons.mp hd with rfl | hd
      · omega
      · exact htail.digit_lt d hd
    · rw [pairUp]
      cases ds with
      | nil =>
        have hne : b ≠ 0 := fun h0 => h.last_ne (by simp [h0])
        simp only [pairUp, getLast?_singleton, ne_eq, Option.some.injEq]
        omega
      | cons c ds =>
        obtain ⟨e, es, hes⟩ :=
          exists_cons_of_ne_nil (pairUp_ne_nil (cons_ne_nil c ds))
        have hlast := htail.last_ne
        rw [hes] at hlast ⊢
        rwa [getLast?_cons_cons]

/-- The two digits of each base-100 digit. -/
def spread (xs : List Nat) : List Nat := xs.flatMap fun x => [x / 10, x % 10]

theorem spread_pairUp (h : ∀ d ∈ ds, d < 10) : spread (pairUp ds) = padEven ds := by
  induction ds using pairUp.induct with
  | case1 => rfl
  | case2 a =>
    show [10 * a / 10, 10 * a % 10] = [a, 0]
    rw [Nat.mul_div_cancel_left a (by decide), Nat.mul_mod_right]
  | case3 a b ds ih =>
    have hb := h b (by simp)
    rw [padEven_cons_cons, ← ih fun d hd => h d (by simp [hd])]
    show (10 * a + b) / 10 :: (10 * a + b) % 10 :: spread (pairUp ds) = _
    rw [show (10 * a + b) / 10 = a by omega, show (10 * a + b) % 10 = b by omega]

theorem dropZero_padEven (h : ds.getLast? ≠ some 0) : dropZero (padEven ds) = ds := by
  unfold dropZero padEven
  split_ifs with hodd hlast
  · simp
  · simp at hlast
  · rfl

/-! ## Bytes of a mantissa -/

/-- The low bit of a byte of the mantissa says whether more digits follow. -/
theorem mantissa_cons {x : Nat} (h : x < 100) :
    mantissa (x :: xs) = UInt8.ofNat (2 * x + if xs = [] then 0 else 1) :: mantissa xs := by
  cases xs with
  | nil =>
    show [UInt8.ofNat (2 * x + 1) - 1] = [UInt8.ofNat (2 * x + 0)]
    have hle : (1 : UInt8) ≤ UInt8.ofNat (2 * x + 1) := by
      rw [UInt8.le_iff_toNat_le, toNat_tag (by omega)]
      exact Nat.le_add_left 1 _
    congr 1
    rw [← UInt8.toNat_inj, UInt8.toNat_sub_of_le _ _ hle, toNat_tag (by omega),
      toNat_tag (by omega)]
    rfl
  | cons y xs => rfl

theorem base10_mantissa (h : ∀ x ∈ xs, x < 100) : base10 (mantissa xs) = .ok (spread xs) := by
  induction xs with
  | nil => rfl
  | cons x xs ih =>
    have hx := h x mem_cons_self
    have hhalf : (2 * x + if xs = [] then 0 else 1) / 2 = x := by split_ifs <;> omega
    have hbyte : (2 * x + if xs = [] then 0 else 1) < 256 := by split_ifs <;> omega
    rw [mantissa_cons hx]
    simp only [base10, toNat_tag hbyte, hhalf]
    rw [if_neg (by omega), ih fun d hd => h d (mem_cons_of_mem _ hd)]
    rfl

/-- Digits that sort before others have the mantissa that does, whatever follows. -/
theorem mantissa_precedes {xs ys : List Nat} (hxs : ∀ x ∈ xs, x < 100) (hys : ∀ y ∈ ys, y < 100)
    (hne : xs ≠ []) (h : xs < ys) : Precedes (mantissa xs) (mantissa ys) := by
  induction xs generalizing ys with
  | nil => exact absurd rfl hne
  | cons x xs ih =>
    cases ys with
    | nil => exact absurd h (not_lt_nil _)
    | cons y ys =>
      have hx := hxs x mem_cons_self
      have hy := hys y mem_cons_self
      have hxs' : ∀ d ∈ xs, d < 100 := fun d hd => hxs d (mem_cons_of_mem _ hd)
      have hys' : ∀ d ∈ ys, d < 100 := fun d hd => hys d (mem_cons_of_mem _ hd)
      rw [mantissa_cons hx, mantissa_cons hy]
      rcases cons_lt_cons_iff.mp h with hlt | ⟨rfl, htail⟩
      · apply precedes_of_head_lt
        rw [UInt8.lt_iff_toNat_lt, toNat_tag (by split_ifs <;> omega),
          toNat_tag (by split_ifs <;> omega)]
        split_ifs <;> omega
      · have hys₀ : ys ≠ [] := fun h0 => not_lt_nil xs (h0 ▸ htail)
        rw [if_neg hys₀]
        by_cases hxs₀ : xs = []
        · -- the fraction that ends first has the even byte
          apply precedes_of_head_lt
          rw [if_pos hxs₀, UInt8.lt_iff_toNat_lt, toNat_tag (by omega), toNat_tag (by omega)]
          omega
        · rw [if_neg hxs₀]
          exact (ih hxs' hys' hxs₀ htail).cons _

theorem mem_mantissa (h : Trimmed 100 xs) {b : UInt8} (hb : b ∈ mantissa xs) :
    0 < b.toNat ∧ b.toNat < 200 := by
  induction xs with
  | nil => exact absurd hb (not_mem_nil)
  | cons x xs ih =>
    have hx := h.digit_lt x mem_cons_self
    rw [mantissa_cons hx] at hb
    rcases mem_cons.mp hb with rfl | hb
    · rw [toNat_tag (by split_ifs <;> omega)]
      split_ifs with hxs
      · have hne : x ≠ 0 := fun h0 => h.last_ne (by simp [h0, hxs])
        omega
      · omega
    · exact ih h.tail hb

theorem zero_notMem_mantissa (h : Trimmed 100 xs) : 0 ∉ mantissa xs := by
  intro h0
  exact absurd (mem_mantissa h h0).1 (by decide)

theorem zero_notMem_complement (h : Trimmed 100 xs) : 0 ∉ onesComplement (mantissa xs) := by
  intro h0
  obtain ⟨b, hb, heq⟩ := mem_map.mp h0
  have hlt := (mem_mantissa h hb).2
  have hnot : (~~~ b).toNat = 0 := by rw [heq]; rfl
  rw [UInt8.toNat_not, UInt8.size] at hnot
  omega

theorem mantissa_ne_nil (h : xs ≠ []) : mantissa xs ≠ [] := by
  cases xs with
  | nil => exact absurd rfl h
  | cons x xs => cases xs <;> exact cons_ne_nil _ _

/-! ## The normal form of a decimal -/

/-- How many zeros the digits of a number end with. -/
def trailingZeros (n : Nat) : Nat := ((Nat.digits 10 n).takeWhile (· = 0)).length

/-- The digits without the zeros they end with. -/
def significant (n : Nat) : List Nat := ((Nat.digits 10 n).dropWhile (· = 0)).reverse

theorem printed_eq (n : Nat) : printed n = significant n ++ replicate (trailingZeros n) 0 := by
  have hzeros : (Nat.digits 10 n).takeWhile (· = 0) = replicate (trailingZeros n) 0 :=
    eq_replicate_of_mem fun d hd => by simpa using mem_takeWhile_imp hd
  calc printed n
      = ((Nat.digits 10 n).takeWhile (· = 0) ++ (Nat.digits 10 n).dropWhile (· = 0)).reverse := by
        rw [takeWhile_append_dropWhile, printed]
    _ = significant n ++ replicate (trailingZeros n) 0 := by
        rw [reverse_append, hzeros, reverse_replicate, significant]

theorem significant_ne_nil {n : Nat} (h : n ≠ 0) : significant n ≠ [] := by
  intro hnil
  have hall := dropWhile_eq_nil_iff.mp (reverse_eq_nil_iff.mp hnil)
  have hne : Nat.digits 10 n ≠ [] := Nat.digits_ne_nil_iff_ne_zero.mpr h
  have hlast := hall _ (getLast_mem hne)
  exact Nat.getLast_digit_ne_zero 10 h (by simpa using hlast)

theorem trimmed_significant (n : Nat) : Trimmed 10 (significant n) := by
  refine ⟨fun d hd => ?_, fun hlast => ?_⟩
  · have hmem : d ∈ Nat.digits 10 n :=
      (dropWhile_suffix _).subset (mem_reverse.mp hd)
    exact Nat.digits_lt_base (by decide) hmem
  · rw [significant, getLast?_reverse] at hlast
    have hhead := head?_dropWhile_not (fun d => decide (d = 0)) (Nat.digits 10 n)
    rw [hlast] at hhead
    simp at hhead

theorem head_significant {n : Nat} (h : n ≠ 0) : (significant n).head? ≠ some 0 := by
  have hne : Nat.digits 10 n ≠ [] := Nat.digits_ne_nil_iff_ne_zero.mpr h
  have hhead : (printed n).head? = (significant n).head? := by
    rw [printed_eq, head?_append_of_ne_nil _ (significant_ne_nil h)]
  rw [← hhead, printed, head?_reverse, getLast?_eq_some_getLast hne]
  simpa using Nat.getLast_digit_ne_zero 10 h

/-- The power of one hundred is half that of ten, rounded up. -/
theorem toE100_mul_two (e : Int) : toE100 e * 2 = e ∨ toE100 e * 2 = e + 1 := by
  unfold toE100
  split_ifs with h
  · omega
  · have hdiv : Int.tdiv e 2 = -((-e) / 2) := by
      rw [← neg_neg e, Int.neg_tdiv, Int.tdiv_eq_ediv_of_nonneg (by omega), neg_neg]
    omega

/-- The printed length of a coefficient. -/
def numDigits (n : Nat) : Nat := (Nat.digits 10 n).length

theorem length_significant (n : Nat) : (significant n).length + trailingZeros n = numDigits n := by
  have hlen := congrArg length (printed_eq n)
  simpa [printed, numDigits] using hlen.symm

theorem rdropWhile_printed {n : Nat} (h : n ≠ 0) :
    (0 :: printed n).rdropWhile (· = 0) = 0 :: significant n := by
  have hne : (Nat.digits 10 n).dropWhile (· = 0) ≠ [] := by
    simpa [significant] using significant_ne_nil h
  rw [rdropWhile, printed, reverse_cons, reverse_reverse, dropWhile_append,
    if_neg (by simpa using hne), reverse_append, significant]
  rfl

theorem alignedDigits_eq (h : d.coeff ≠ 0) {e10 : Int}
    (he : e10 = d.exponent.toInt + numDigits d.coeff) :
    alignedDigits d = (toE100 e10,
      if toE100 e10 * 2 = e10 then significant d.coeff else 0 :: significant d.coeff) := by
  have hlen : (printed d.coeff).length = numDigits d.coeff := length_reverse
  simp only [alignedDigits, rdropWhile_printed h, hlen, tail_cons, he]

theorem decimalEandM_eq (d : Decimal) :
    decimalEandM d = ((alignedDigits d).1, mantissa (pairUp (alignedDigits d).2)) := by
  rw [← base100_padEven]
  rfl

theorem trimmed_cons_zero (h : Trimmed 10 ds) (hne : ds ≠ []) : Trimmed 10 (0 :: ds) := by
  obtain ⟨d, ds, rfl⟩ := exists_cons_of_ne_nil hne
  refine ⟨fun e he => ?_, by rw [getLast?_cons_cons]; exact h.last_ne⟩
  rcases mem_cons.mp he with rfl | he
  · decide
  · exact h.digit_lt e he

theorem head_pairUp {a : Nat} (h : a ≠ 0) : (pairUp (a :: ds)).head? ≠ some 0 := by
  cases ds with
  | nil | cons =>
    simp only [pairUp, head?_cons, ne_eq, Option.some.injEq]
    omega

theorem head_pairUp_zero {a : Nat} (h : a ≠ 0) : (pairUp (0 :: a :: ds)).head? ≠ some 0 := by
  simp only [pairUp, head?_cons, ne_eq, Option.some.injEq]
  omega

/-- The coefficient is its significant digits moved by the trailing zeros. -/
theorem coeff_eq (n : Nat) : (n : ℚ) = fraction 10 (significant n) * 10 ^ numDigits n := by
  have hprinted := fraction_mul_pow (b := 10) (by decide) (printed n)
  rw [printed, reverse_reverse, Nat.ofDigits_digits, length_reverse,
    show (Nat.digits 10 n).reverse = printed n from rfl, printed_eq, fraction_append_zeros]
    at hprinted
  rw [← hprinted, numDigits]
  norm_num

/-- The exponent and the mantissa of a decimal are those of its normal form. -/
theorem decimalEandM_spec (h : d.coeff ≠ 0) :
    ∃ x : Normalized 100, decimalEandM d = (x.exponent, mantissa x.digits) ∧
      x.value = d.coeff * (10 : ℚ) ^ d.exponent.toInt := by
  obtain ⟨a, ds, hsig⟩ := exists_cons_of_ne_nil (significant_ne_nil h)
  have hhead : a ≠ 0 := fun h0 => head_significant h (by rw [hsig, h0]; rfl)
  have htrim := trimmed_significant d.coeff
  have haligned := alignedDigits_eq h rfl
  have hten : (10 : ℚ) ≠ 0 := by norm_num
  have hhundred : ∀ e : Int, (100 : ℚ) ^ e = 10 ^ (e * 2) := by
    intro e
    rw [mul_comm, zpow_mul]
    norm_num
  generalize he : d.exponent.toInt + numDigits d.coeff = e10 at haligned
  have hvalue : d.coeff * (10 : ℚ) ^ d.exponent.toInt =
      fraction 10 (significant d.coeff) * 10 ^ e10 := by
    rw [coeff_eq, mul_assoc, ← zpow_natCast, ← zpow_add₀ hten, ← he, add_comm]
  rcases toE100_mul_two e10 with heven | hodd
  · rw [if_pos heven, hsig] at haligned
    rw [hsig] at htrim hvalue
    refine ⟨⟨toE100 e10, pairUp (a :: ds), trimmed_pairUp htrim,
      pairUp_ne_nil (cons_ne_nil _ _), head_pairUp hhead⟩, ?_, ?_⟩
    · rw [decimalEandM_eq, haligned]
    · rw [hvalue, Normalized.value, fraction_pairUp]
      push_cast
      rw [hhundred, heven]
  · rw [if_neg (by omega), hsig] at haligned
    rw [hsig] at htrim hvalue
    refine ⟨⟨toE100 e10, pairUp (0 :: a :: ds),
      trimmed_pairUp (trimmed_cons_zero htrim (cons_ne_nil _ _)),
      pairUp_ne_nil (cons_ne_nil _ _), head_pairUp_zero hhead⟩, ?_, ?_⟩
    · rw [decimalEandM_eq, haligned]
    · rw [hvalue, Normalized.value, fraction_pairUp, fraction_cons]
      push_cast
      rw [hhundred, hodd, zpow_add_one₀ hten]
      field_simp
      ring

/-! ## Back from the mantissa -/

/-- Packed digits read back, with the exponent cut to an `int32`. -/
theorem makeDecimalFromMandE_packed (h : Trimmed 10 ds) (hne : ds ≠ [])
    (negative : Bool) (e : Int) :
    makeDecimalFromMandE negative e (mantissa (pairUp ds)) =
      .ok { negative, exponent := Int32.ofInt (2 * e - ds.length),
            coeff := Nat.ofDigits 10 ds.reverse } := by
  unfold makeDecimalFromMandE
  rw [if_neg (mantissa_ne_nil (pairUp_ne_nil hne)), base10_mantissa (trimmed_pairUp h).digit_lt]
  show Except.ok _ = _
  rw [spread_pairUp h.digit_lt, dropZero_padEven h.last_ne]

/-- The decimal with the trailing zeros of the coefficient moved into the exponent. -/
def reduced (d : Decimal) (negative : Bool) : Decimal :=
  { negative, exponent := Int32.ofInt (d.exponent.toInt + trailingZeros d.coeff),
    coeff := Nat.ofDigits 10 (significant d.coeff).reverse }

theorem makeDecimalFromMandE_decimalEandM (h : d.coeff ≠ 0) (negative : Bool) :
    makeDecimalFromMandE negative (decimalEandM d).1 (decimalEandM d).2 =
      .ok (reduced d negative) := by
  have hne := significant_ne_nil h
  have htrim := trimmed_significant d.coeff
  have hlen := length_significant d.coeff
  have haligned := alignedDigits_eq h rfl
  generalize he : d.exponent.toInt + numDigits d.coeff = e10 at haligned
  rw [decimalEandM_eq, haligned]
  rcases toE100_mul_two e10 with heven | hodd
  · rw [if_pos heven, makeDecimalFromMandE_packed htrim hne, reduced,
      show 2 * toE100 e10 - (significant d.coeff).length =
        d.exponent.toInt + trailingZeros d.coeff by omega]
  · rw [if_neg (by omega), makeDecimalFromMandE_packed (trimmed_cons_zero htrim hne)
      (cons_ne_nil _ _), reduced, length_cons,
      show 2 * toE100 e10 - ((significant d.coeff).length + 1 : Nat) =
        d.exponent.toInt + trailingZeros d.coeff by omega,
      reverse_cons, Nat.ofDigits_append]
    simp

end Cockroach.Encoding
