import Cockroach.Lib.Codes

/-!
# Variable-length integers in keys (`encoding.go`)

An integer is written as a tag and as many bytes as it needs, the highest first. Small
unsigned integers are the tag alone; the tags of negative ones lie below, those of longer
positive ones above. An encoder of the source appends to a buffer; here it gives what it
appends.

* `encodeUvarintAscending_precedes`, `encodeVarintAscending_precedes` and their descending
  versions: codes sort as the integers, or the other way round;
* `reads_uvarintAscending`, `reads_uvarintDescending`, `reads_varintAscending`,
  `reads_varintDescending`: decoding gives the integer back and leaves what follows;
* `IsVarint.measures`: `getVarintLen` finds the length of all four codes;
* `integer_keys`: all of this for the four codes together.
-/

namespace Cockroach.Encoding

open Lib List UInt8

/-- What stops an encoder or a decoder, with the data its message shows. -/
inductive Failure where
  /-- a run-time panic: index or slice bounds out of range -/
  | indexOutOfRange
  /-- a panic: buffer too short -/
  | bufferTooShort
  /-- a panic: unknown form -/
  | unknownForm
  /-- a panic: invalid tag -/
  | invalidTag (tag : UInt8)
  /-- insufficient bytes to decode varint value -/
  | insufficientVarint (rest : List UInt8)
  /-- insufficient bytes to decode uvarint value -/
  | insufficientUvarint (rest : List UInt8)
  /-- invalid uvarint length -/
  | invalidUvarintLength (length : Int)
  /-- varint overflows int64 -/
  | varintOverflow (v : UInt64)
  /-- varint length exceeds slice length -/
  | varintExceedsSlice (length : Int) (sliceLength : Nat)
  /-- did not find marker -/
  | markerMissing
  /-- did not find terminator in buffer -/
  | terminatorMissing (terminator : UInt8)
  /-- malformed escape in buffer -/
  | malformedEscape
  /-- unknown escape sequence -/
  | unknownEscape (escape v : UInt8)
  /-- expected mantissa, got zero bytes -/
  | emptyMantissa
  /-- base-100 encoded digit out of range [0,99] -/
  | digitOutOfRange (t : Nat)
  /-- unknown prefix of the encoded byte slice -/
  | unknownPrefix (buf : List UInt8)
  /-- overflow during Encode -/
  | encodeOverflow
  /-- slice too short for bit array -/
  | bitArrayTooShort (length : Nat)
  /-- cannot find bit array data terminator -/
  | bitArrayTerminatorMissing
  /-- FromEncodingParts: lastBitsUsed must not exceed 64 -/
  | lastBitsUsedExceeded (lastBitsUsed : UInt64)
  /-- empty slice -/
  | emptySlice
  /-- slice too short -/
  | sliceTooShort (length : Nat)
  /-- invalid encoding (unterminated) -/
  | unterminated
  /-- malformed inverted index key in buffer -/
  | malformedInvertedIndexKey
  /-- unknown tag -/
  | unknownTag (tag : UInt8)
  /-- failed to get the number of elements in the container -/
  | containerSize
  deriving DecidableEq, Repr

/-! ## Tags -/

/-- `IntMin`: the lowest tag of an integer. -/
def intMin : Nat := 0x80

def intMaxWidth : Nat := 8

/-- `IntMax`: the highest tag of an integer. -/
def intMax : Nat := 0xfd

def intZero : Nat := intMin + intMaxWidth

def intSmall : Nat := intMax - intZero - intMaxWidth

/-- The bytes that an integer up to a bound of the encoders' `switch` takes. -/
def width (v : Nat) : Nat :=
  if v ≤ 0xff then 1
  else if v ≤ 0xffff then 2
  else if v ≤ 0xffffff then 3
  else if v ≤ 0xffffffff then 4
  else if v ≤ 0xffffffffff then 5
  else if v ≤ 0xffffffffffff then 6
  else if v ≤ 0xffffffffffffff then 7
  else 8

/-- The range of the integers of each width. -/
theorem width_range (v : Nat) : (v ≤ 0xff ∧ width v = 1) ∨ (0xff < v ∧ v ≤ 0xffff ∧ width v = 2) ∨
      (0xffff < v ∧ v ≤ 0xffffff ∧ width v = 3) ∨
      (0xffffff < v ∧ v ≤ 0xffffffff ∧ width v = 4) ∨
      (0xffffffff < v ∧ v ≤ 0xffffffffff ∧ width v = 5) ∨
      (0xffffffffff < v ∧ v ≤ 0xffffffffffff ∧ width v = 6) ∨
      (0xffffffffffff < v ∧ v ≤ 0xffffffffffffff ∧ width v = 7) ∨
      (0xffffffffffffff < v ∧ width v = 8) := by
  unfold width
  split_ifs <;> omega

theorem width_pos (v : Nat) : 0 < width v := by
  have hv := width_range v
  omega

theorem width_le (v : Nat) : width v ≤ 8 := by
  have hv := width_range v
  omega

theorem width_mono {v w : Nat} (h : v ≤ w) : width v ≤ width w := by
  have hw := width_range w
  rcases width_range v with hv | hv | hv | hv | hv | hv | hv | hv <;> omega

theorem lt_pow_width {v : Nat} (h : v < 2 ^ 64) : v < 256 ^ width v := by
  unfold width
  split_ifs <;> omega

/-! ## Encoders -/

/-- `EncodeUvarintAscending`. -/
def encodeUvarintAscending (v : UInt64) : List UInt8 :=
  if v.toNat ≤ intSmall then [UInt8.ofNat (intZero + v.toNat)]
  else
    let n := width v.toNat
    UInt8.ofNat (intMax - intMaxWidth + n) :: bigEndian n v.toNat

/-- `EncodeUvarintDescending`. -/
def encodeUvarintDescending (v : UInt64) : List UInt8 :=
  if v.toNat = 0 then [UInt8.ofNat (intMin + 8)]
  else
    let n := width v.toNat
    UInt8.ofNat (intMin + intMaxWidth - n) :: bigEndian n (~~~ v).toNat

/-- `EncodeVarintAscending`. -/
def encodeVarintAscending (v : Int64) : List UInt8 :=
  if v.toInt < 0 then
    let n := width v.toInt.natAbs
    UInt8.ofNat (intMin + intMaxWidth - n) :: bigEndian n v.toUInt64.toNat
  else encodeUvarintAscending v.toUInt64

/-- `EncodeVarintDescending`. -/
def encodeVarintDescending (v : Int64) : List UInt8 := encodeVarintAscending (~~~ v)

/-! ## Decoders -/

/-- `DecodeUvarintAscending`. -/
def decodeUvarintAscending : List UInt8 → Except Failure (List UInt8 × UInt64)
  | [] => .error (.insufficientUvarint [])
  | t :: b =>
    let length : Int := t.toNat - intZero
    -- A tag below `intZero` gives the two's complement of a negative length.
    if length ≤ intSmall then .ok (b, UInt64.ofInt length)
    else
      let length := length - intSmall
      if length < 0 ∨ length > 8 then .error (.invalidUvarintLength length)
      else if b.length < length then .error (.insufficientUvarint b)
      else .ok (b.drop length.toNat, UInt64.ofNat (uint (b.take length.toNat)))

/-- `DecodeUvarintDescending`. -/
def decodeUvarintDescending : List UInt8 → Except Failure (List UInt8 × UInt64)
  | [] => .error (.insufficientUvarint [])
  | t :: b =>
    let length : Int := intZero - t.toNat
    if length < 0 ∨ length > 8 then .error (.invalidUvarintLength length)
    else if b.length < length then .error (.insufficientUvarint b)
    else .ok (b.drop length.toNat, UInt64.ofNat (uint ((b.take length.toNat).map (~~~ ·))))

/-- `DecodeVarintAscending`. -/
def decodeVarintAscending : List UInt8 → Except Failure (List UInt8 × Int64)
  | [] => .error (.insufficientVarint [])
  | t :: remB =>
    let length : Int := t.toNat - intZero
    if length < 0 then
      let length := -length
      if remB.length < length then .error (.insufficientVarint remB)
      -- The complement of each byte builds up a number, the complement of which is negative.
      else .ok (remB.drop length.toNat,
        ~~~ Int64.ofNat (uint ((remB.take length.toNat).map (~~~ ·))))
    else do
      let (remB, v) ← decodeUvarintAscending (t :: remB)
      if v.toNat > 2 ^ 63 - 1 then .error (.varintOverflow v)
      else .ok (remB, v.toInt64)

/-- `DecodeVarintDescending`. -/
def decodeVarintDescending (b : List UInt8) : Except Failure (List UInt8 × Int64) := do
  let (leftover, v) ← decodeVarintAscending b
  .ok (leftover, ~~~ v)

/-- `getVarintLen`. -/
def getVarintLen : List UInt8 → Except Failure Nat
  | [] => .error .indexOutOfRange
  | t :: b =>
    let length : Int := t.toNat - intZero
    if length ≥ 0 ∧ length ≤ intSmall then .ok 1
    else
      let length : Int := if length ≥ 0 then 1 + length - intSmall else 1 - length
      if length > (t :: b).length then .error (.varintExceedsSlice length (t :: b).length)
      else .ok length.toNat

/-- `GetMultiVarintLen` after the tag: the length of up to `num` varints, fewer if the slice
ends. -/
def multiVarintLen : Nat → List UInt8 → Except Failure Nat
  | 0, _ => .ok 0
  | _ + 1, [] => .ok 0
  | num + 1, t :: b => do
      let len ← getVarintLen (t :: b)
      let rest ← multiVarintLen num ((t :: b).drop len)
      .ok (len + rest)

/-- `GetMultiVarintLen`. -/
def getMultiVarintLen (b : List UInt8) (num : Nat) : Except Failure Nat := do
  let len ← multiVarintLen num b.tail
  .ok (1 + len)

/-! ## Lengths without encoding -/

/-- `highestByteIndex`. -/
def highestByteIndex (v : UInt64) : Nat :=
  let high := if v.toNat > 0xffffffff then 4 else 0
  let v₁ := if v.toNat > 0xffffffff then v.toNat / 2 ^ 32 else v.toNat
  let mid := if v₁ > 0xffff then 2 else 0
  let v₂ := if v₁ > 0xffff then v₁ / 2 ^ 16 else v₁
  high + mid + if v₂ > 0xff then 1 else 0

/-- `EncLenUvarintAscending`. -/
def encLenUvarintAscending (v : UInt64) : Nat :=
  if v.toNat ≤ intSmall then 1 else 2 + highestByteIndex v

/-- `EncLenUvarintDescending`. -/
def encLenUvarintDescending (v : UInt64) : Nat :=
  if v.toNat = 0 then 1 else 2 + highestByteIndex v

/-- `EncodedLengthUvarintAscending`. -/
def encodedLengthUvarintAscending (v : UInt64) : Nat :=
  if v.toNat ≤ intSmall then 1 else 1 + width v.toNat

theorem highestByteIndex_succ (v : UInt64) : highestByteIndex v + 1 = width v.toNat := by
  unfold highestByteIndex
  dsimp only
  rcases width_range v.toNat with h | h | h | h | h | h | h | h <;> split_ifs <;> omega

theorem encLenUvarintAscending_eq (v : UInt64) :
    encLenUvarintAscending v = (encodeUvarintAscending v).length := by
  unfold encLenUvarintAscending encodeUvarintAscending
  split
  · rfl
  · have := highestByteIndex_succ v
    simp only [length_cons, length_bigEndian]
    omega

theorem encLenUvarintDescending_eq (v : UInt64) :
    encLenUvarintDescending v = (encodeUvarintDescending v).length := by
  unfold encLenUvarintDescending encodeUvarintDescending
  split
  · rfl
  · have := highestByteIndex_succ v
    simp only [length_cons, length_bigEndian]
    omega

theorem encodedLengthUvarintAscending_eq (v : UInt64) :
    encodedLengthUvarintAscending v = (encodeUvarintAscending v).length := by
  unfold encodedLengthUvarintAscending encodeUvarintAscending
  split
  · rfl
  · simp only [length_cons, length_bigEndian, Nat.add_comm]

/-! ## Tags as numbers -/

section TagValues

variable {n : Nat}

theorem toNat_tag (h : n < 256) : (UInt8.ofNat n).toNat = n := by
  rw [toNat_ofNat_byte, Nat.mod_eq_of_lt h]

theorem toNat_smallTag (h : n ≤ intSmall) : (UInt8.ofNat (intZero + n)).toNat = intZero + n := by
  have h' : n ≤ 109 := h
  apply toNat_tag
  show 136 + n < 256
  omega

theorem toNat_longTag (h : n ≤ 8) :
    (UInt8.ofNat (intMax - intMaxWidth + n)).toNat = intMax - intMaxWidth + n := by
  apply toNat_tag
  show 245 + n < 256
  omega

theorem toNat_lowTag :
    (UInt8.ofNat (intMin + intMaxWidth - n)).toNat = intMin + intMaxWidth - n := by
  apply toNat_tag
  show 136 - n < 256
  omega

end TagValues

/-! ## The bytes of a complement -/

/-- The complement of a 64-bit number is that of each of its bytes. -/
theorem bigEndian_complement {n v : Nat} (hn : n ≤ 8) (hv : v < 2 ^ 64) :
    bigEndian n (2 ^ 64 - 1 - v) = (bigEndian n v).map (~~~ ·) := by
  induction n with
  | zero => rfl
  | succ n ih =>
    have hpow : (2 : Nat) ^ 64 = 256 ^ n * (256 * 256 ^ (7 - n)) := by
      rw [← pow_succ', ← pow_add, show n + (7 - n + 1) = 8 by omega]
      norm_num
    have hdiv : (2 ^ 64 - 1 - v) / 256 ^ n = 256 * 256 ^ (7 - n) - (v / 256 ^ n + 1) := by
      rw [show 2 ^ 64 - 1 - v = 256 ^ n * (256 * 256 ^ (7 - n)) - (v + 1) by omega]
      exact Nat.mul_sub_div _ _ _ (by omega)
    have hlt : v / 256 ^ n < 256 * 256 ^ (7 - n) :=
      Nat.div_lt_of_lt_mul (by rw [← hpow]; exact hv)
    have hhead : UInt8.ofNat ((2 ^ 64 - 1 - v) / 256 ^ n) = ~~~ UInt8.ofNat (v / 256 ^ n) := by
      rw [← UInt8.toNat_inj, UInt8.toNat_not, toNat_ofNat_byte, toNat_ofNat_byte, hdiv,
        UInt8.size]
      omega
    show UInt8.ofNat ((2 ^ 64 - 1 - v) / 256 ^ n) :: bigEndian n (2 ^ 64 - 1 - v) = _
    rw [hhead, ih (by omega)]
    rfl

theorem map_complement_complement (b : List UInt8) : (b.map (~~~ ·)).map (~~~ ·) = b := by
  rw [map_map]
  exact map_id'' (fun x => not_not) b

/-- Complemented bytes read back as the number. -/
theorem uint_complement {n v : Nat} (hn : n ≤ 8) (hv : v < 2 ^ 64) (hvn : v < 256 ^ n) :
    uint ((bigEndian n (2 ^ 64 - 1 - v)).map (~~~ ·)) = v := by
  rw [bigEndian_complement hn hv, map_complement_complement, uint_bigEndian hvn]

theorem toNat_complement (v : UInt64) : (~~~ v).toNat = 2 ^ 64 - 1 - v.toNat := by
  rw [UInt64.toNat_not, UInt64.size]
  norm_num

theorem toInt_complement (v : Int64) : (~~~ v).toInt = - v.toInt - 1 := by
  have hlt := v.toInt_lt
  have hle := v.le_toInt
  rw [Int64.toInt_not, Int.bmod_eq_of_le] <;> omega

theorem toNat_toUInt64 (v : Int64) :
    (v.toUInt64.toNat : Int) = if v.toInt < 0 then 2 ^ 64 + v.toInt else v.toInt := by
  have hlt : v.toUInt64.toNat < 2 ^ 64 := v.toUInt64.toNat_lt
  have h : v.toInt = v.toBitVec.toInt := rfl
  rw [BitVec.toInt_eq_toNat_cond, Int64.toNat_toBitVec] at h
  split_ifs at h ⊢ <;> omega

/-! ## Order -/

theorem encodeUvarintAscending_precedes {v w : UInt64} (h : v.toNat < w.toNat) :
    Precedes (encodeUvarintAscending v) (encodeUvarintAscending w) := by
  have hsmall : intSmall = 109 := rfl
  have hzero : intZero = 136 := rfl
  have hmax : intMax - intMaxWidth = 245 := rfl
  have hw : w.toNat < 2 ^ 64 := w.toNat_lt
  have hv₈ := width_le v.toNat
  have hw₁ := width_pos w.toNat
  have hw₈ := width_le w.toNat
  unfold encodeUvarintAscending
  by_cases hvs : v.toNat ≤ intSmall
  · rw [if_pos hvs]
    split_ifs with hws
    · apply precedes_of_head_lt
      rw [lt_iff_toNat_lt, toNat_smallTag hvs, toNat_smallTag hws]
      omega
    · apply precedes_of_head_lt
      rw [lt_iff_toNat_lt, toNat_smallTag hvs, toNat_longTag hw₈]
      omega
  · rw [if_neg hvs, if_neg (by omega)]
    rcases (width_mono h.le).lt_or_eq with hlt | heq
    · apply precedes_of_head_lt
      rw [lt_iff_toNat_lt, toNat_longTag hv₈, toNat_longTag hw₈]
      omega
    · rw [heq]
      exact (bigEndian_precedes h (lt_pow_width hw)).cons _

theorem encodeUvarintDescending_precedes {v w : UInt64} (h : v.toNat < w.toNat) :
    Precedes (encodeUvarintDescending w) (encodeUvarintDescending v) := by
  have hmin : intMin + intMaxWidth = 136 := rfl
  have hw : w.toNat < 2 ^ 64 := w.toNat_lt
  have hv : v.toNat < 2 ^ 64 := v.toNat_lt
  have hw₁ := width_pos w.toNat
  have hw₈ := width_le w.toNat
  unfold encodeUvarintDescending
  rw [if_neg (show ¬ w.toNat = 0 by omega)]
  split_ifs with hv₀
  · apply precedes_of_head_lt
    rw [lt_iff_toNat_lt, toNat_lowTag, toNat_tag (by decide)]
    show _ < 136
    omega
  · rcases (width_mono h.le).lt_or_eq with hlt | heq
    · apply precedes_of_head_lt
      rw [lt_iff_toNat_lt, toNat_lowTag, toNat_lowTag]
      omega
    · dsimp only
      rw [heq, toNat_complement, toNat_complement, bigEndian_complement hw₈ hw,
        bigEndian_complement hw₈ hv]
      have hbytes := bigEndian_precedes h (lt_pow_width hw)
      exact (hbytes.map_anti strictAnti_complement).cons _

/-- Unsigned integers have none of the tags of negative ones. -/
theorem uvarintAscending_head (v : UInt64) :
    ∃ t c, encodeUvarintAscending v = t :: c ∧ intZero ≤ t.toNat := by
  unfold encodeUvarintAscending
  split_ifs with hsmall
  · refine ⟨_, _, rfl, ?_⟩
    rw [toNat_smallTag hsmall]
    exact Nat.le_add_right _ _
  · refine ⟨_, _, rfl, ?_⟩
    rw [toNat_longTag (width_le _)]
    exact Nat.le_add_right_of_le (by decide)

/-- Negative integers: the longer one is the smaller, and bytes of complements sort as the
complements. -/
theorem encodeVarintAscending_precedes_negative {v w : Int64} (h : v.toInt < w.toInt)
    (hw : w.toInt < 0) : Precedes (encodeVarintAscending v) (encodeVarintAscending w) := by
  have hmin : intMin + intMaxWidth = 136 := rfl
  have hlow := v.le_toInt
  have hv₈ := width_le v.toInt.natAbs
  have hbytes : ∀ u : Int64, u.toInt < 0 → ∀ n ≤ 8,
      bigEndian n u.toUInt64.toNat = (bigEndian n (u.toInt.natAbs - 1)).map (~~~ ·) := by
    intro u hu n hn
    have hbits := toNat_toUInt64 u
    rw [if_pos hu] at hbits
    rw [← bigEndian_complement hn (by omega)]
    congr 1
    omega
  unfold encodeVarintAscending
  rw [if_pos (h.trans hw), if_pos hw]
  rcases (width_mono (show w.toInt.natAbs ≤ v.toInt.natAbs by omega)).lt_or_eq with hlt | heq
  · apply precedes_of_head_lt
    rw [lt_iff_toNat_lt, toNat_lowTag, toNat_lowTag]
    omega
  · dsimp only
    rw [heq, hbytes v (h.trans hw) _ hv₈, hbytes w hw _ hv₈]
    have hfits := lt_pow_width (v := v.toInt.natAbs) (by omega)
    have hdigits := bigEndian_precedes (n := width v.toInt.natAbs)
      (show w.toInt.natAbs - 1 < v.toInt.natAbs - 1 by omega) (by omega)
    exact (hdigits.map_anti strictAnti_complement).cons _

theorem encodeVarintAscending_precedes {v w : Int64} (h : v.toInt < w.toInt) :
    Precedes (encodeVarintAscending v) (encodeVarintAscending w) := by
  by_cases hw : w.toInt < 0
  · exact encodeVarintAscending_precedes_negative h hw
  · have hvbits := toNat_toUInt64 v
    have hwbits := toNat_toUInt64 w
    unfold encodeVarintAscending
    rw [if_neg hw] at hwbits ⊢
    split_ifs at hvbits ⊢ with hv
    · -- Every tag of a negative integer is below the tags of the others.
      obtain ⟨t, c, hcode, ht⟩ := uvarintAscending_head w.toUInt64
      have hzero : intMin + intMaxWidth = intZero := rfl
      have hv₁ := width_pos v.toInt.natAbs
      have hmax : intMaxWidth = 8 := rfl
      rw [hcode]
      apply precedes_of_head_lt
      rw [lt_iff_toNat_lt, toNat_lowTag]
      omega
    · exact encodeUvarintAscending_precedes (by omega)

theorem encodeVarintDescending_precedes {v w : Int64} (h : v.toInt < w.toInt) :
    Precedes (encodeVarintDescending w) (encodeVarintDescending v) := by
  apply encodeVarintAscending_precedes
  rw [toInt_complement, toInt_complement]
  omega

/-! ## Reading tags -/

section Tags

variable {t : UInt8} {b : List UInt8} {n : Nat}

theorem decodeUvarintAscending_small (ht : t.toNat = intZero + n) (hn : n ≤ intSmall) :
    decodeUvarintAscending (t :: b) = .ok (b, UInt64.ofNat n) := by
  have hn' : n ≤ 109 := hn
  have hlen : (t.toNat : Int) - intZero = n := by omega
  simp only [decodeUvarintAscending, hlen]
  have hmod : Int.toNat ((n : Int) % 2 ^ 64) = n := by omega
  rw [if_pos (by omega), UInt64.ofInt, hmod]

theorem tag_long (ht : t.toNat = intMax - intMaxWidth + n) :
    (t.toNat : Int) - intZero = 109 + n := by
  have ht' : t.toNat = 245 + n := ht
  show (t.toNat : Int) - 136 = 109 + n
  omega

theorem tag_complemented (ht : t.toNat = intMin + intMaxWidth - n) (hn₈ : n ≤ 8) :
    (t.toNat : Int) - intZero = - n := by
  have ht' : t.toNat = 136 - n := ht
  show (t.toNat : Int) - 136 = - n
  omega

theorem decodeUvarintAscending_long (ht : t.toNat = intMax - intMaxWidth + n) (hn : 0 < n)
    (hn₈ : n ≤ 8) (hb : n ≤ b.length) :
    decodeUvarintAscending (t :: b) = .ok (b.drop n, UInt64.ofNat (uint (b.take n))) := by
  have hsmall : (intSmall : Int) = 109 := rfl
  simp only [decodeUvarintAscending, tag_long ht, hsmall]
  rw [if_neg (by omega), if_neg (by omega), if_neg (by omega),
    show (109 + n - 109 : Int).toNat = n by omega]

theorem decodeUvarintDescending_tag (ht : t.toNat = intMin + intMaxWidth - n) (hn₈ : n ≤ 8)
    (hb : n ≤ b.length) :
    decodeUvarintDescending (t :: b) =
      .ok (b.drop n, UInt64.ofNat (uint ((b.take n).map (~~~ ·)))) := by
  have hlen : (intZero : Int) - t.toNat = n := by
    have := tag_complemented ht hn₈
    omega
  simp only [decodeUvarintDescending, hlen]
  rw [if_neg (by omega), if_neg (by omega), Int.toNat_natCast]

theorem decodeVarintAscending_negative (ht : t.toNat = intMin + intMaxWidth - n) (hn : 0 < n)
    (hn₈ : n ≤ 8) (hb : n ≤ b.length) :
    decodeVarintAscending (t :: b) =
      .ok (b.drop n, ~~~ Int64.ofNat (uint ((b.take n).map (~~~ ·)))) := by
  simp only [decodeVarintAscending, tag_complemented ht hn₈, neg_neg]
  rw [if_pos (by omega), if_neg (by omega), Int.toNat_natCast]

theorem getVarintLen_small (ht : t.toNat = intZero + n) (hn : n ≤ intSmall) :
    getVarintLen (t :: b) = .ok 1 := by
  have hlen : (t.toNat : Int) - intZero = n := by omega
  simp only [getVarintLen, hlen]
  rw [if_pos (by omega)]

theorem getVarintLen_long (ht : t.toNat = intMax - intMaxWidth + n) (hn : 0 < n)
    (hb : n ≤ b.length) : getVarintLen (t :: b) = .ok (1 + n) := by
  have hsmall : (intSmall : Int) = 109 := rfl
  simp only [getVarintLen, tag_long ht, hsmall, length_cons]
  rw [if_neg (by omega), if_pos (show (109 + n : Int) ≥ 0 by omega), if_neg (by omega),
    show (1 + (109 + n) - 109 : Int).toNat = 1 + n by omega]

theorem getVarintLen_negative (ht : t.toNat = intMin + intMaxWidth - n) (hn : 0 < n)
    (hn₈ : n ≤ 8) (hb : n ≤ b.length) : getVarintLen (t :: b) = .ok (1 + n) := by
  simp only [getVarintLen, tag_complemented ht hn₈, length_cons]
  rw [if_neg (by omega), if_neg (show ¬ (-(n : Int)) ≥ 0 by omega), if_neg (by omega),
    show (1 - -(n : Int)).toNat = 1 + n by omega]

end Tags

/-! ## The shape of a code

A code is the tag of a small integer, or a tag and the bytes it announces: above the small
tags for long positive integers, below them for complemented bytes. -/

/-- What the codes of integers look like to a reader. -/
inductive IsVarint : List UInt8 → Prop
  | small {t : UInt8} {n : Nat} (ht : t.toNat = intZero + n) (hn : n ≤ intSmall) : IsVarint [t]
  | long {t : UInt8} {bytes : List UInt8} (ht : t.toNat = intMax - intMaxWidth + bytes.length)
      (hn : 0 < bytes.length) (hn₈ : bytes.length ≤ 8) : IsVarint (t :: bytes)
  | negative {t : UInt8} {bytes : List UInt8}
      (ht : t.toNat = intMin + intMaxWidth - bytes.length) (hn : 0 < bytes.length)
      (hn₈ : bytes.length ≤ 8) : IsVarint (t :: bytes)

theorem isVarint_uvarintAscending (v : UInt64) : IsVarint (encodeUvarintAscending v) := by
  have hn₁ := width_pos v.toNat
  have hn₈ := width_le v.toNat
  unfold encodeUvarintAscending
  split_ifs with hsmall
  · exact .small (toNat_smallTag hsmall) hsmall
  · refine .long ?_ (by simpa using hn₁) (by simpa using hn₈)
    rw [length_bigEndian, toNat_longTag hn₈]

theorem isVarint_uvarintDescending (v : UInt64) : IsVarint (encodeUvarintDescending v) := by
  have hn₁ := width_pos v.toNat
  have hn₈ := width_le v.toNat
  unfold encodeUvarintDescending
  split_ifs
  · exact .small (n := 0) (by decide) (by decide)
  · refine .negative ?_ (by simpa using hn₁) (by simpa using hn₈)
    rw [length_bigEndian, toNat_lowTag]

theorem isVarint_varintAscending (v : Int64) : IsVarint (encodeVarintAscending v) := by
  have hn₁ := width_pos v.toInt.natAbs
  have hn₈ := width_le v.toInt.natAbs
  unfold encodeVarintAscending
  split_ifs
  · refine .negative ?_ (by simpa using hn₁) (by simpa using hn₈)
    rw [length_bigEndian, toNat_lowTag]
  · exact isVarint_uvarintAscending _

theorem isVarint_varintDescending (v : Int64) : IsVarint (encodeVarintDescending v) :=
  isVarint_varintAscending _

theorem IsVarint.measures {c : List UInt8} (h : IsVarint c) : Measures getVarintLen c := by
  intro s
  cases h with
  | small ht hn => exact getVarintLen_small ht hn
  | @long t bytes ht hn hn₈ =>
    rw [cons_append, getVarintLen_long ht hn (by simp), length_cons, Nat.add_comm]
  | @negative t bytes ht hn hn₈ =>
    rw [cons_append, getVarintLen_negative ht hn hn₈ (by simp), length_cons, Nat.add_comm]

/-- The first byte of a code is one of the tags of integers. -/
theorem IsVarint.head {c : List UInt8} (h : IsVarint c) :
    ∃ t c', c = t :: c' ∧ intMin ≤ t.toNat ∧ t.toNat ≤ intMax := by
  cases h with
  | @small t n ht hn =>
    refine ⟨t, [], rfl, ?_, ?_⟩
    · rw [ht]; exact Nat.le_add_right_of_le (by decide)
    · rw [ht]; exact (Nat.add_le_add_left hn _).trans (by decide)
  | @long t bytes ht hn hn₈ =>
    refine ⟨t, bytes, rfl, ?_, ?_⟩
    · rw [ht]; exact Nat.le_add_right_of_le (by decide)
    · rw [ht]; exact (Nat.add_le_add_left hn₈ _).trans (by decide)
  | @negative t bytes ht hn hn₈ =>
    refine ⟨t, bytes, rfl, ?_, ?_⟩
    · rw [ht]
      show 128 ≤ 136 - bytes.length
      omega
    · rw [ht]
      show 136 - bytes.length ≤ 253
      omega

/-- Up to `num` codes one after another are measured together. -/
theorem multiVarintLen_flatten {codes : List (List UInt8)} (h : ∀ c ∈ codes, IsVarint c)
    (s : List UInt8) :
    multiVarintLen codes.length (codes.flatten ++ s) = .ok codes.flatten.length := by
  induction codes with
  | nil => cases s <;> rfl
  | cons c codes ih =>
    have hc := h c mem_cons_self
    obtain ⟨t, c', rfl, -⟩ := hc.head
    have hlen := hc.measures (codes.flatten ++ s)
    have hdrop : ((t :: c') ++ (codes.flatten ++ s)).drop (t :: c').length =
        codes.flatten ++ s := drop_left
    have hrest := ih fun d hd => h d (mem_cons_of_mem _ hd)
    rw [flatten_cons, append_assoc, length_cons]
    show multiVarintLen (codes.length + 1) (t :: (c' ++ (codes.flatten ++ s))) = _
    rw [cons_append] at hlen hdrop
    simp only [multiVarintLen, hlen, bind, Except.bind, hdrop, hrest]
    simp [Nat.add_right_comm]

/-! ## Round trips -/

theorem reads_uvarintAscending (v : UInt64) :
    Reads decodeUvarintAscending (encodeUvarintAscending v) v := by
  have hn₁ := width_pos v.toNat
  have hn₈ := width_le v.toNat
  intro s
  unfold encodeUvarintAscending
  split_ifs with hsmall
  · rw [singleton_append, decodeUvarintAscending_small (toNat_smallTag hsmall) hsmall,
      UInt64.ofNat_toNat]
  · rw [cons_append, decodeUvarintAscending_long (toNat_longTag hn₈) hn₁ hn₈ (by simp),
      drop_left' (length_bigEndian _ _), take_left' (length_bigEndian _ _),
      uint_bigEndian (lt_pow_width v.toNat_lt), UInt64.ofNat_toNat]

theorem reads_uvarintDescending (v : UInt64) :
    Reads decodeUvarintDescending (encodeUvarintDescending v) v := by
  have hn₈ := width_le v.toNat
  intro s
  unfold encodeUvarintDescending
  split_ifs with hzero
  · have hv : v = 0 := UInt64.toNat_inj.mp hzero
    rw [singleton_append, decodeUvarintDescending_tag (n := 0) (by decide) (by decide)
      (by simp), hv]
    rfl
  · rw [cons_append, decodeUvarintDescending_tag toNat_lowTag hn₈ (by simp),
      drop_left' (length_bigEndian _ _), take_left' (length_bigEndian _ _),
      toNat_complement, uint_complement hn₈ v.toNat_lt (lt_pow_width v.toNat_lt),
      UInt64.ofNat_toNat]

theorem reads_varintAscending (v : Int64) :
    Reads decodeVarintAscending (encodeVarintAscending v) v := by
  have hlow := v.le_toInt
  have hhigh := v.toInt_lt
  have hbits := toNat_toUInt64 v
  intro s
  unfold encodeVarintAscending
  split_ifs with hneg
  · have hn₁ := width_pos v.toInt.natAbs
    have hn₈ := width_le v.toInt.natAbs
    rw [if_pos hneg] at hbits
    have hcompl : v.toUInt64.toNat = 2 ^ 64 - 1 - (v.toInt.natAbs - 1) := by omega
    have hfits := lt_pow_width (v := v.toInt.natAbs) (by omega)
    rw [cons_append, decodeVarintAscending_negative toNat_lowTag hn₁ hn₈ (by simp),
      drop_left' (length_bigEndian _ _), take_left' (length_bigEndian _ _),
      hcompl, uint_complement hn₈ (by omega) (by omega)]
    have hval : ~~~ Int64.ofNat (v.toInt.natAbs - 1) = v := by
      rw [← Int64.toInt_inj, toInt_complement, Int64.toInt_ofNat_of_lt (by omega)]
      omega
    rw [hval]
  · rw [if_neg hneg] at hbits
    obtain ⟨t, c, hcode, ht⟩ := uvarintAscending_head v.toUInt64
    have hread := reads_uvarintAscending v.toUInt64 s
    rw [hcode, cons_append] at hread ⊢
    simp only [decodeVarintAscending]
    rw [if_neg (by omega), hread]
    show (if v.toUInt64.toNat > 2 ^ 63 - 1 then _ else _) = _
    rw [if_neg (by omega)]
    rfl

theorem reads_varintDescending (v : Int64) :
    Reads decodeVarintDescending (encodeVarintDescending v) v := by
  intro s
  unfold decodeVarintDescending encodeVarintDescending
  rw [reads_varintAscending]
  show Except.ok (s, ~~~ ~~~ v) = _
  rw [Int64.not_not]

/-! ## Integers as parts of keys -/

/-- Codes of integers sort as the integers, or the other way round, whatever follows them;
each is read back up to what follows; and the lengths found without encoding are theirs. -/
theorem integer_keys : (∀ (x y : Int64) (s t : List UInt8), x < y →
      encodeVarintAscending x ++ s < encodeVarintAscending y ++ t ∧
      encodeVarintDescending y ++ t < encodeVarintDescending x ++ s) ∧
    (∀ (x y : UInt64) (s t : List UInt8), x < y →
      encodeUvarintAscending x ++ s < encodeUvarintAscending y ++ t ∧
      encodeUvarintDescending y ++ t < encodeUvarintDescending x ++ s) ∧
    (∀ (x : Int64) (s : List UInt8),
      decodeVarintAscending (encodeVarintAscending x ++ s) = .ok (s, x) ∧
      decodeVarintDescending (encodeVarintDescending x ++ s) = .ok (s, x)) ∧
    (∀ (x : UInt64) (s : List UInt8),
      decodeUvarintAscending (encodeUvarintAscending x ++ s) = .ok (s, x) ∧
      decodeUvarintDescending (encodeUvarintDescending x ++ s) = .ok (s, x)) ∧
    ∀ x : UInt64, encLenUvarintAscending x = (encodeUvarintAscending x).length ∧
      encLenUvarintDescending x = (encodeUvarintDescending x).length ∧
      encodedLengthUvarintAscending x = (encodeUvarintAscending x).length := by
  refine ⟨fun x y s t h => ?_, fun x y s t h => ?_, fun x s => ?_, fun x s => ?_, fun x => ?_⟩
  · have hlt : x.toInt < y.toInt := Int64.lt_iff_toInt_lt.mp h
    exact ⟨(encodeVarintAscending_precedes hlt).append_lt s t,
      (encodeVarintDescending_precedes hlt).append_lt t s⟩
  · have hlt : x.toNat < y.toNat := UInt64.lt_iff_toNat_lt.mp h
    exact ⟨(encodeUvarintAscending_precedes hlt).append_lt s t,
      (encodeUvarintDescending_precedes hlt).append_lt t s⟩
  · exact ⟨reads_varintAscending x s, reads_varintDescending x s⟩
  · exact ⟨reads_uvarintAscending x s, reads_uvarintDescending x s⟩
  · exact ⟨encLenUvarintAscending_eq x, encLenUvarintDescending_eq x,
      encodedLengthUvarintAscending_eq x⟩

/-- Across the signs and across a width. -/
theorem integer_keys_boundaries : ((-256 : Int64) < -255 ∧ encodeVarintAscending (-256) ++ [9] <
      encodeVarintAscending (-255) ++ []) ∧
    (255 : UInt64) < 256 ∧
      encodeUvarintDescending 256 ++ [] < encodeUvarintDescending 255 ++ [0] :=
  ⟨⟨by decide, (integer_keys.1 (-256) (-255) [9] [] (by decide)).1⟩, by decide,
    (integer_keys.2.1 255 256 [0] [] (by decide)).2⟩

end Cockroach.Encoding
