import Cockroach.Encoding.DecimalOrder
import Cockroach.Encoding.Values

/-!
# The length of a key-encoded value (`PeekLength` in `encoding.go`)

`PeekLength` finds the length of the value at the start of a key from its tag. Values inside
arrays and JSON containers are measured by `PeekLength` in turn; here the depth of the
nesting is bounded by the length of the key, each container taking a byte at least.

The results say that it measures what the encoders write, for every kind of value that has
one of the encoders of this development: `peekLengthAt_varint`, `peekLengthAt_bytes`,
`peekLengthAt_decimal` and so on, and `peekLengthAt_array` for the arrays of such values.
-/

namespace Cockroach.Encoding

open Lib List

/-! ## The switch on the tag -/

/-- How the length of a value is found. -/
inductive Peek where
  /-- the value is its tag -/
  | tagOnly
  | bitArray (terminator : UInt8)
  /-- a JSON string or number: a value up to the terminator -/
  | jsonScalar (dir : Direction)
  /-- a JSON array or object: the number of elements, then the elements -/
  | jsonContainer (dir : Direction)
  | array (dir : Direction)
  | bytes (e : Escapes)
  | box2D
  | geoInvertedIndex
  | geo (e : Escapes)
  | jsonInvertedIndex
  /-- so many varints after the tag -/
  | varints (num : Nat)
  | float
  | varint
  | decimal
  | unknown
  deriving DecidableEq

/-- `byte(True)` and `byte(False)`. -/
def byteTrue : UInt8 := 10

def byteFalse : UInt8 := 11

def ascendingGeoEscapes : Escapes := { ascendingBytesEscapes with marker := geoMarker }

def descendingGeoEscapes : Escapes := { descendingBytesEscapes with marker := geoDescMarker }

/-- The cases of the `switch` in `PeekLength`, in its order. -/
def peekKind (m : UInt8) : Peek :=
  if m ∈ [encodedNull, encodedNullDesc, encodedNotNull, encodedNotNullDesc, floatNaN,
      floatNaNDesc, floatZero, decimalZero, byteTrue, byteFalse, emptyArray, voidMarker,
      jsonNullKeyMarker, jsonNullKeyDescendingMarker, jsonFalseKeyMarker,
      jsonFalseKeyDescendingMarker, jsonTrueKeyMarker, jsonTrueKeyDescendingMarker] then .tagOnly
  else if m = bitArrayMarker then .bitArray bitArrayDataTerminator
  else if m = bitArrayDescMarker then .bitArray bitArrayDataDescTerminator
  else if m ∈ [jsonStringKeyMarker, jsonNumberKeyMarker] then .jsonScalar .ascending
  else if m ∈ [jsonStringKeyDescendingMarker, jsonNumberKeyDescendingMarker] then
    .jsonScalar .descending
  else if m ∈ [jsonArrayKeyMarker, jsonObjectKeyMarker, jsonEmptyArrayKeyMarker] then
    .jsonContainer .ascending
  else if m ∈ [jsonArrayKeyDescendingMarker, jsonObjectKeyDescendingMarker,
      jsonEmptyArrayKeyDescendingMarker] then .jsonContainer .descending
  else if m = arrayKeyMarker then .array .ascending
  else if m = arrayKeyDescendingMarker then .array .descending
  else if m = bytesMarker then .bytes ascendingBytesEscapes
  else if m = box2DMarker then .box2D
  else if m = geoInvertedIndexMarker then .geoInvertedIndex
  else if m = geoMarker then .geo ascendingGeoEscapes
  else if m = jsonInvertedIndex then .jsonInvertedIndex
  else if m = bytesDescMarker then .bytes descendingBytesEscapes
  else if m = geoDescMarker then .geo descendingGeoEscapes
  else if m ∈ [timeMarker, timeTZMarker] then .varints 2
  else if m ∈ [durationBigNegMarker, durationMarker, durationBigPosMarker] then .varints 3
  else if m ∈ [floatNeg, floatPos] then .float
  else if intMin ≤ m.toNat ∧ m.toNat ≤ intMax then .varint
  else if decimalNaN ≤ m ∧ m ≤ decimalNaNDesc then .decimal
  else .unknown

/-! ## Lengths of the kinds -/

/-- `arrayKeyTerminator`, `jsonKeyTerminator` and their descending versions. -/
def keyTerminator : Direction → UInt8
  | .ascending => 0x00
  | .descending => 0xff

/-- The length of the next element, by which the slice is then shifted: a slice may not be
shifted beyond its end. -/
def nextLength (peekLength : List UInt8 → Except Failure Nat) (buf : List UInt8) :
    Except Failure Nat := do
  let next ← peekLength buf
  if next > buf.length then .error .indexOutOfRange else .ok next

/-- `getArrayOrJSONLength`, with the terminator that the callers' `keyDoneFn` looks for. -/
def getArrayOrJSONLength (peekLength : List UInt8 → Except Failure Nat) (terminator : UInt8)
    (buf : List UInt8) : Except Failure Nat := do
  let (_, length) ←
    measureUntil (nextLength peekLength) terminator .unterminated (buf.length + 1) buf
  .ok (length + 1)

/-- `peekBox2DLength` for so many floats. -/
def peekFloats : Nat → List UInt8 → Except Failure Nat
  | 0, _ => .ok 0
  | _ + 1, [] => .error (.sliceTooShort 0)
  | n + 1, c :: curr =>
    if c ∈ [floatNaN, floatNaNDesc, floatZero] then do
      let length ← peekFloats n curr
      .ok (1 + length)
    else if c ∈ [floatNeg, floatPos] then
      if (c :: curr).length < 9 then .error .indexOutOfRange
      else do
        let length ← peekFloats n ((c :: curr).drop 9)
        .ok (9 + length)
    else .error (.unknownTag c)

/-- `getGeoInvertedIndexKeyLength`: four floats or, if the byte after the cell says so, two. -/
def getGeoInvertedIndexKeyLength (buf : List UInt8) : Except Failure Nat :=
  if buf.length < 3 + 2 * 8 then .error (.sliceTooShort buf.length)
  else do
    let cellLen ← getVarintLen buf.tail
    match buf.drop (1 + cellLen) with
    | [] => .error .indexOutOfRange
    | encodingKind :: _ => .ok (1 + cellLen + 1 + if encodingKind = 1 then 2 * 8 else 4 * 8)

/-- The loop of `getInvertedIndexKeyLength`. -/
def invertedIndexKeyLength : Nat → List UInt8 → Except Failure Nat
  | _, [] => .error .malformedInvertedIndexKey
  | skipped, c :: b =>
    if c = 0x00 then
      match b with
      | [] => .error .indexOutOfRange
      | v :: b =>
        if v ∈ [0x01, jsonEmptyObject, jsonEmptyArray] then .ok (skipped + 2)
        else invertedIndexKeyLength (skipped + 2) b
    else invertedIndexKeyLength (skipped + 1) b

/-- `getDecimalLen`. -/
def getDecimalLen (m : UInt8) (b : List UInt8) : Except Failure Nat :=
  if m < decimalNaN ∨ m > decimalNaNDesc then .error (.invalidTag m)
  else if m ∈ [decimalNaN, decimalNegativeInfinity, decimalNaNDesc, decimalInfinity,
      decimalZero] then .ok 1
  else do
    let l ← if m ∈ [decimalNegLarge, decimalNegSmall, decimalPosLarge, decimalPosSmall] then
        getVarintLen b
      else .ok 0
    let idx ← findDecimalTerminator (b.drop l)
    .ok (1 + l + idx + 1)

/-! ## `PeekLength` -/

/-- `PeekLength` of a value nested less than so deep. -/
def peekLengthAt : Nat → List UInt8 → Except Failure Nat
  | 0, _ => .error .unterminated
  | _ + 1, [] => .error .emptySlice
  | depth + 1, m :: b =>
    match peekKind m with
    | .tagOnly => .ok 1
    | .bitArray terminator => do
        let (_, n) ← getBitArrayWordsLen b terminator
        let l ← getVarintLen (b.drop (n + 1))
        .ok (1 + n + l + 1)
    | .jsonScalar dir | .array dir => do
        let length ← getArrayOrJSONLength (peekLengthAt depth) (keyTerminator dir) b
        .ok (1 + length)
    | .jsonContainer dir => do
        let numberElems ← (getVarintLen b).mapError fun
          | .indexOutOfRange => .indexOutOfRange
          | _ => .containerSize
        let length ←
          getArrayOrJSONLength (peekLengthAt depth) (keyTerminator dir) (b.drop numberElems)
        .ok (1 + numberElems + length)
    | .bytes e => getBytesLength e (m :: b)
    | .box2D => do
        let length ← peekFloats 4 b
        .ok (1 + length)
    | .geoInvertedIndex => getGeoInvertedIndexKeyLength (m :: b)
    | .geo e =>
      if (m :: b).length < 8 then .error (.sliceTooShort (m :: b).length)
      else do
        let ret ← getBytesLength e ((m :: b).drop 8)
        .ok (8 + ret)
    | .jsonInvertedIndex => do
        let len ← invertedIndexKeyLength 0 (m :: b)
        match (m :: b).drop len with
        | [] => .error .indexOutOfRange
        | c :: rest =>
          if c ∈ [jsonEmptyArray, jsonEmptyObject] then .ok (len + 1)
          else do
            let valLen ← peekLengthAt depth (c :: rest)
            .ok (len + valLen)
    | .varints num => getMultiVarintLen (m :: b) num
    | .float => if (m :: b).length < 9 then .error (.sliceTooShort (m :: b).length) else .ok 9
    | .varint => getVarintLen (m :: b)
    | .decimal => getDecimalLen m b
    | .unknown => .error (.unknownTag m)

/-- `PeekLength`. -/
def peekLength (b : List UInt8) : Except Failure Nat := peekLengthAt (b.length + 1) b

/-! ## What it measures -/

theorem peekKind_table :
    (∀ m : Fin 256, intMin ≤ m.val → m.val ≤ intMax → peekKind (UInt8.ofNat m) = .varint) ∧
    (∀ m : Fin 256, 24 ≤ m.val → m.val ≤ 54 → m.val ≠ 39 →
      peekKind (UInt8.ofNat m) = .decimal) := by
  decide +kernel

variable {m : UInt8}

theorem peekKind_varint (hlow : intMin ≤ m.toNat) (hhigh : m.toNat ≤ intMax) :
    peekKind m = .varint := by
  have := peekKind_table.1 ⟨m.toNat, m.toNat_lt⟩ hlow hhigh
  rwa [UInt8.ofNat_toNat] at this

theorem peekKind_decimal (hlow : 24 ≤ m.toNat) (hhigh : m.toNat ≤ 54)
    (hzero : m.toNat ≠ 39) : peekKind m = .decimal := by
  have := peekKind_table.2 ⟨m.toNat, m.toNat_lt⟩ hlow hhigh hzero
  rwa [UInt8.ofNat_toNat] at this

section Measured

variable {depth : Nat} {c : List UInt8}

theorem peekLengthAt_tagOnly (h : peekKind m = .tagOnly) :
    Measures (peekLengthAt (depth + 1)) [m] := by
  intro s
  show peekLengthAt (depth + 1) (m :: s) = _
  simp only [peekLengthAt, h, length_singleton]

theorem peekLengthAt_varint (h : IsVarint c) : Measures (peekLengthAt (depth + 1)) c := by
  intro s
  have hlen := h.measures s
  obtain ⟨t, c', rfl, hlow, hhigh⟩ := h.head
  show peekLengthAt (depth + 1) (t :: (c' ++ s)) = _
  simp only [peekLengthAt, peekKind_varint hlow hhigh]
  exact hlen

theorem peekLengthAt_bytes {e : Escapes} (he : e.Proper) (hm : peekKind m = .bytes e)
    (data : List UInt8) :
    Measures (peekLengthAt (depth + 1)) (m :: encodeBytesWithTerminator e data) := by
  intro s
  have hlen := getBytesLength_encode he m data s
  rw [cons_append] at hlen ⊢
  simp only [peekLengthAt, hm]
  exact hlen

theorem peekLengthAt_varints {codes : List (List UInt8)}
    (hm : peekKind m = .varints codes.length) (h : ∀ c ∈ codes, IsVarint c) :
    Measures (peekLengthAt (depth + 1)) (m :: codes.flatten) := by
  intro s
  have hlen := multiVarintLen_flatten h s
  rw [cons_append]
  simp only [peekLengthAt, hm, getMultiVarintLen, tail_cons, hlen, bind, Except.bind, length_cons]
  rw [Nat.add_comm]

theorem peekLengthAt_bitArray {marker terminator : UInt8} {encodeUvarint : UInt64 → List UInt8}
    (hm : peekKind marker = .bitArray terminator) (hcode : ∀ v, IsVarint (encodeUvarint v))
    (hterm : terminator.toNat < intMin ∨ intMax < terminator.toNat) (d : BitArray) :
    Measures (peekLengthAt (depth + 1)) (encodeBitArray marker terminator encodeUvarint d) := by
  intro s
  have hwords := getBitArrayWordsLen_words hcode hterm d.words
    (encodeUvarint d.lastBitsUsed.toUInt64 ++ s)
  have hlast := (hcode d.lastBitsUsed.toUInt64).measures s
  have hdrop : (d.words.flatMap encodeUvarint ++
      terminator :: (encodeUvarint d.lastBitsUsed.toUInt64 ++ s)).drop
        ((d.words.flatMap encodeUvarint).length + 1) =
      encodeUvarint d.lastBitsUsed.toUInt64 ++ s := by
    rw [← drop_drop, drop_left]
    rfl
  rw [encodeBitArray, cons_append, append_assoc, cons_append]
  simp only [peekLengthAt, hm, hwords, bind, Except.bind, hdrop, hlast, length_cons, length_append]
  congr 1
  omega

theorem measures_nextLength {len : List UInt8 → Except Failure Nat} (h : Measures len c) :
    Measures (nextLength len) c := by
  intro s
  have hle : ¬ c.length > (c ++ s).length := by simp
  simp only [nextLength, h s, bind, Except.bind, if_neg hle]

/-- Elements that are measured and do not begin with the terminator, one level deeper. -/
theorem peekLengthAt_array {dir : Direction} {items : List (List UInt8)}
    (hm : peekKind m = .array dir) (hitems : ∀ c ∈ items, Measures (peekLengthAt depth) c)
    (hstop : ∀ c ∈ items, ∃ x c', c = x :: c' ∧ x ≠ keyTerminator dir) :
    Measures (peekLengthAt (depth + 1)) (m :: (items.flatten ++ [keyTerminator dir])) := by
  intro s
  have hlen : getArrayOrJSONLength (peekLengthAt depth) (keyTerminator dir)
      (items.flatten ++ keyTerminator dir :: s) = .ok (items.flatten.length + 1) := by
    rw [getArrayOrJSONLength, measureUntil_flatten (fun c hc => measures_nextLength (hitems c hc))
      hstop (by rw [length_append]; omega) s]
    rfl
  rw [cons_append, append_assoc, singleton_append]
  simp only [peekLengthAt, hm, hlen, bind, Except.bind, length_cons, length_append, length_nil]
  congr 1
  omega

/-! ### Decimals -/

theorem isVarint_encodeExp (expAscending : Bool) (exp : UInt64) :
    IsVarint (encodeExp expAscending exp) := by
  cases expAscending with
  | false => exact isVarint_uvarintDescending exp
  | true => exact isVarint_uvarintAscending exp

/-- The tags of numbers with a varint exponent. -/
theorem varExpTag_number {tag : UInt8}
    (h : tag ∈ [decimalNegLarge, decimalNegSmall, decimalPosLarge, decimalPosSmall]) :
    ¬ (tag < decimalNaN ∨ tag > decimalNaNDesc) ∧
      tag ∉ [decimalNaN, decimalNegativeInfinity, decimalNaNDesc, decimalInfinity,
        decimalZero] := by
  simp only [mem_cons, not_mem_nil, or_false] at h
  rcases h with rfl | rfl | rfl | rfl <;> decide

theorem getDecimalLen_varExp {tag : UInt8} {code : List UInt8} (hcode : IsVarint code)
    (htag : tag ∈ [decimalNegLarge, decimalNegSmall, decimalPosLarge, decimalPosSmall])
    (negative : Bool) (x : Normalized 100) (s : List UInt8) :
    getDecimalLen tag (code ++ (signed negative (mantissa x.digits) ++ decimalTerminator :: s)) =
      .ok (1 + code.length + (signed negative (mantissa x.digits)).length + 1) := by
  have hlen := hcode.measures (signed negative (mantissa x.digits) ++ decimalTerminator :: s)
  have hend := findDecimalTerminator_signed negative x s
  obtain ⟨hrange, hnumber⟩ := varExpTag_number htag
  simp only [getDecimalLen, if_neg hrange, if_neg hnumber, if_pos htag, hlen, bind, Except.bind,
    drop_left, hend]

theorem getDecimalLen_medium {e : Int} (he : 0 ≤ e ∧ e ≤ 10) (negative : Bool)
    (x : Normalized 100) (s : List UInt8) :
    getDecimalLen (mediumTag negative e)
        (signed negative (mantissa x.digits) ++ decimalTerminator :: s) =
      .ok (1 + (signed negative (mantissa x.digits)).length + 1) := by
  obtain ⟨h₀, he⟩ := he
  have hend := findDecimalTerminator_signed negative x s
  have htag : ¬ (mediumTag negative e < decimalNaN ∨ mediumTag negative e > decimalNaNDesc) ∧
      mediumTag negative e ∉ [decimalNaN, decimalNegativeInfinity, decimalNaNDesc,
        decimalInfinity, decimalZero] ∧
      mediumTag negative e ∉ [decimalNegLarge, decimalNegSmall, decimalPosLarge,
        decimalPosSmall] := by
    cases negative <;> interval_cases e <;> decide
  simp only [getDecimalLen, if_neg htag.1, if_neg htag.2.1, if_neg htag.2.2, bind, Except.bind,
    drop_zero, hend, Nat.add_zero]

theorem getDecimalLen_numberCode {negative : Bool} {x : Normalized 100} {t : UInt8}
    (h : numberCode negative x = t :: c) (s : List UInt8) :
    getDecimalLen t (c ++ s) = .ok (t :: c).length := by
  rcases expCode_cases negative x.exponent with ⟨-, hc⟩ | ⟨he, hc⟩ | ⟨-, hc⟩ <;>
    simp only [numberCode, hc, cons_append, nil_append, cons.injEq] at h <;>
    obtain ⟨rfl, rfl⟩ := h <;>
    simp only [append_assoc, singleton_append, length_append, length_cons, length_nil]
  · rw [getDecimalLen_varExp (isVarint_encodeExp _ _) (by cases negative <;> decide)]
    congr 1
    omega
  · rw [getDecimalLen_medium he]
    congr 1
    omega
  · rw [getDecimalLen_varExp (isVarint_encodeExp _ _) (by cases negative <;> decide)]
    congr 1
    omega

theorem peekLengthAt_numberCode (negative : Bool) (x : Normalized 100) :
    Measures (peekLengthAt (depth + 1)) (numberCode negative x) := by
  intro s
  obtain ⟨t, c, hhead, ht⟩ := numberCode_head negative x
  have htag : peekKind t = .decimal := by
    split_ifs at ht
    · exact peekKind_decimal (by omega) (by omega) (by omega)
    · exact peekKind_decimal (by omega) (by omega) (by omega)
  rw [hhead, cons_append]
  simp only [peekLengthAt, htag]
  exact getDecimalLen_numberCode hhead s

theorem peekLengthAt_decimalTag {t : UInt8} (ht : t ∈ [decimalNaN, decimalNegativeInfinity,
    decimalNaNDesc, decimalInfinity, decimalZero]) :
    Measures (peekLengthAt (depth + 1)) [t] := by
  intro s
  simp only [mem_cons, not_mem_nil, or_false] at ht
  rcases ht with rfl | rfl | rfl | rfl | rfl <;> rfl

/-- A decimal is measured, and its first byte is not a terminator. -/
theorem peekLengthAt_decimal {d : Decimal} {r : Nat} (h : Kind d r) (invert : Bool) :
    ∃ t c, encodeDecimal d invert = .ok (t :: c) ∧ 24 ≤ t.toNat ∧ t.toNat ≤ 54 ∧
      ∀ depth, Measures (peekLengthAt (depth + 1)) (t :: c) := by
  have hnumber : d.form = .finite → d.coeff ≠ 0 → ∃ t c, encodeDecimal d invert = .ok (t :: c) ∧
      24 ≤ t.toNat ∧ t.toNat ≤ 54 ∧ ∀ depth, Measures (peekLengthAt (depth + 1)) (t :: c) := by
    intro hform hcoeff
    obtain ⟨n, -, -, -, hcode⟩ := exists_normalized hform hcoeff
    obtain ⟨t, c, hhead, ht⟩ := numberCode_head (d.negative != invert) n
    refine ⟨t, c, (hcode invert).trans (congrArg _ hhead), ?_, ?_, fun depth => ?_⟩
    · split_ifs at ht <;> omega
    · split_ifs at ht <;> omega
    · rw [← hhead]
      exact peekLengthAt_numberCode _ n
  cases h with
  | nan hform =>
    refine ⟨_, _, encodeDecimal_nan invert hform, ?_, ?_, fun depth =>
      peekLengthAt_decimalTag ?_⟩ <;> cases invert <;> decide
  | negativeInfinity hform hneg | infinity hform hneg =>
    refine ⟨_, _, encodeDecimal_infinite invert hform, ?_, ?_, fun depth =>
      peekLengthAt_decimalTag ?_⟩ <;> rw [hneg] <;> cases invert <;> decide
  | negativeNumber hform hcoeff hneg | positiveNumber hform hcoeff hneg =>
    exact hnumber hform hcoeff
  | zero hform hcoeff =>
    exact ⟨_, _, encodeDecimal_zero invert hform hcoeff, by decide, by decide, fun depth =>
      peekLengthAt_decimalTag (by decide)⟩

end Measured

end Cockroach.Encoding
