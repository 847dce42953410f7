import Cockroach.Encoding.Varint

/-!
# Strings, times, durations and bit arrays in keys (`encoding.go`)

* `reads_bytesAscending`, `reads_timeAscending`, `reads_timeTZAscending`, their descending
  versions, `reads_decodeDuration` and `reads_bitArray`: each decoder gives back what the
  encoder wrote and leaves what follows.
* `bytes_keys`: byte strings keep their order, and what is said of a string without decoding
  it agrees with decoding it.
* `getBytesLength_encode`, `getBitArrayWordsLen_words`: the lengths that are found without
  decoding.

Bytes are escaped so that the terminator does not occur in them. `bytes.IndexByte`, which the
source calls to find the next byte to escape, is the loop over the bytes here. Where the
source asks `PeekType` for one type, the markers of that type are compared.
-/

namespace Cockroach.Encoding

open Lib List

/-- `Direction`. -/
inductive Direction where
  | ascending
  | descending
  deriving DecidableEq, Repr

/-! ## Tags -/

def encodedNull : UInt8 := 0x00
def encodedNotNull : UInt8 := 0x01
def floatNaN : UInt8 := 2
def floatNeg : UInt8 := 3
def floatZero : UInt8 := 4
def floatPos : UInt8 := 5
def floatNaNDesc : UInt8 := 6
def bytesMarker : UInt8 := 0x12
def bytesDescMarker : UInt8 := 19
def timeMarker : UInt8 := 20
def durationBigNegMarker : UInt8 := 21
def durationMarker : UInt8 := 22
def durationBigPosMarker : UInt8 := 23
def jsonInvertedIndex : UInt8 := 55
def jsonEmptyArray : UInt8 := 56
def jsonEmptyObject : UInt8 := 57
def bitArrayMarker : UInt8 := 58
def bitArrayDescMarker : UInt8 := 59
def bitArrayDataTerminator : UInt8 := 0x00
def bitArrayDataDescTerminator : UInt8 := 0xff
def timeTZMarker : UInt8 := 60
def geoMarker : UInt8 := 61
def geoDescMarker : UInt8 := 62
def arrayKeyMarker : UInt8 := 63
def arrayKeyDescendingMarker : UInt8 := 64
def box2DMarker : UInt8 := 65
def geoInvertedIndexMarker : UInt8 := 66
def emptyArray : UInt8 := 67
def voidMarker : UInt8 := 68
def jsonEmptyArrayKeyMarker : UInt8 := 69
def jsonNullKeyMarker : UInt8 := 70
def jsonStringKeyMarker : UInt8 := 71
def jsonNumberKeyMarker : UInt8 := 72
def jsonFalseKeyMarker : UInt8 := 73
def jsonTrueKeyMarker : UInt8 := 74
def jsonArrayKeyMarker : UInt8 := 75
def jsonObjectKeyMarker : UInt8 := 76
def jsonObjectKeyDescendingMarker : UInt8 := 77
def jsonArrayKeyDescendingMarker : UInt8 := 78
def jsonTrueKeyDescendingMarker : UInt8 := 79
def jsonFalseKeyDescendingMarker : UInt8 := 80
def jsonNumberKeyDescendingMarker : UInt8 := 81
def jsonStringKeyDescendingMarker : UInt8 := 82
def jsonNullKeyDescendingMarker : UInt8 := 83
def jsonEmptyArrayKeyDescendingMarker : UInt8 := 84
def encodedNotNullDesc : UInt8 := 0xfe
def encodedNullDesc : UInt8 := 0xff

/-! ## Bytes and strings -/

/-- `escapes`. -/
structure Escapes where
  escape : UInt8
  escapedTerm : UInt8
  escaped00 : UInt8
  escapedFF : UInt8
  marker : UInt8
  deriving DecidableEq

def ascendingBytesEscapes : Escapes := ⟨0x00, 0x01, 0xff, 0x00, bytesMarker⟩

def descendingBytesEscapes : Escapes :=
  ⟨~~~ 0x00, ~~~ 0x01, ~~~ 0xff, ~~~ 0x00, bytesDescMarker⟩

/-- `encodeBytesAscendingWithoutTerminatorOrPrefix`. -/
def escapeBytes (e : Escapes) : List UInt8 → List UInt8
  | [] => []
  | d :: data =>
    if d = e.escape then e.escape :: e.escaped00 :: escapeBytes e data
    else d :: escapeBytes e data

/-- `encodeBytesAscendingWithTerminator`. -/
def encodeBytesWithTerminator (e : Escapes) (data : List UInt8) : List UInt8 :=
  escapeBytes e data ++ [e.escape, e.escapedTerm]

/-- `EncodeBytesAscending`, and `EncodeStringAscending` for the bytes of a string. -/
def encodeBytesAscending (data : List UInt8) : List UInt8 :=
  bytesMarker :: encodeBytesWithTerminator ascendingBytesEscapes data

/-- `EncodeBytesDescending`. -/
def encodeBytesDescending (data : List UInt8) : List UInt8 :=
  bytesDescMarker :: (encodeBytesWithTerminator ascendingBytesEscapes data).map (~~~ ·)

/-- `EncodeNextBytesAscending`. -/
def encodeNextBytesAscending (data : List UInt8) : List UInt8 :=
  bytesMarker :: (escapeBytes ascendingBytesEscapes data ++ [ascendingBytesEscapes.escape,
    ascendingBytesEscapes.escaped00, ascendingBytesEscapes.escape,
    ascendingBytesEscapes.escapedTerm])

/-- `EncodeBytesSize`. -/
def encodeBytesSize (data : List UInt8) : Nat :=
  data.length + 3 + data.count ascendingBytesEscapes.escape

/-- `EncodeNextBytesSize`. -/
def encodeNextBytesSize (data : List UInt8) : Nat :=
  data.length + 5 + data.count ascendingBytesEscapes.escape

/-- The loop of `decodeBytesInternal`. -/
def unescape (e : Escapes) : List UInt8 → Except Failure (List UInt8 × List UInt8)
  | [] => .error (.terminatorMissing e.escape)
  | c :: b =>
    if c = e.escape then
      match b with
      | [] => .error .malformedEscape
      | v :: b =>
        if v = e.escapedTerm then .ok (b, [])
        else if v ≠ e.escaped00 then .error (.unknownEscape e.escape v)
        else do
          let (rest, r) ← unescape e b
          .ok (rest, e.escapedFF :: r)
    else do
      let (rest, r) ← unescape e b
      .ok (rest, c :: r)

/-- `decodeBytesInternal`. -/
def decodeBytesInternal (e : Escapes) : List UInt8 → Except Failure (List UInt8 × List UInt8)
  | [] => .error .markerMissing
  | m :: b => if m ≠ e.marker then .error .markerMissing else unescape e b

/-- `DecodeBytesAscending`. -/
def decodeBytesAscending (b : List UInt8) : Except Failure (List UInt8 × List UInt8) :=
  decodeBytesInternal ascendingBytesEscapes b

/-- `DecodeBytesDescending`. -/
def decodeBytesDescending (b : List UInt8) : Except Failure (List UInt8 × List UInt8) := do
  let (b, r) ← decodeBytesInternal descendingBytesEscapes b
  .ok (b, r.map (~~~ ·))

/-- The loop of `validateDecodeBytesInternal`. -/
def validateUnescape (e : Escapes) : List UInt8 → Except Failure (List UInt8)
  | [] => .error (.terminatorMissing e.escape)
  | c :: b =>
    if c = e.escape then
      match b with
      | [] => .error .malformedEscape
      | v :: b =>
        if v = e.escapedTerm then .ok b
        else if v ≠ e.escaped00 then .error (.unknownEscape e.escape v)
        else validateUnescape e b
    else validateUnescape e b

/-- `validateDecodeBytesInternal`. -/
def validateDecodeBytesInternal (e : Escapes) : List UInt8 → Except Failure (List UInt8)
  | [] => .error .markerMissing
  | m :: b => if m ≠ e.marker then .error .markerMissing else validateUnescape e b

/-- `ValidateDecodeBytesAscending`. -/
def validateDecodeBytesAscending (b : List UInt8) : Except Failure (List UInt8) :=
  validateDecodeBytesInternal ascendingBytesEscapes b

/-- The loop of `getBytesLength` from the byte at `skipped` on. An escape as the last byte
is an index out of range: the test for it in the source compares with the whole slice. -/
def escapedLength (e : Escapes) : Nat → List UInt8 → Except Failure Nat
  | _, [] => .error (.terminatorMissing e.escape)
  | skipped, c :: b =>
    if c = e.escape then
      match b with
      | [] => .error .indexOutOfRange
      | v :: b =>
        if v = e.escapedTerm then .ok (skipped + 2) else escapedLength e (skipped + 2) b
    else escapedLength e (skipped + 1) b

/-- `getBytesLength`. -/
def getBytesLength (e : Escapes) : List UInt8 → Except Failure Nat
  | [] => .error .indexOutOfRange
  | _ :: b => escapedLength e 1 b

/-! ## Times -/

/-- The seconds and the nanoseconds of a `time.Time`. -/
structure Time where
  unix : Int64
  nanosecond : Int64
  deriving DecidableEq, Repr

/-- `time.Unix`: nanoseconds outside `[0, 1e9)` are carried into the seconds. -/
def unixTime (sec nsec : Int64) : Time :=
  if nsec < 0 ∨ nsec ≥ 1000000000 then
    let n := nsec / 1000000000
    let nsec := nsec - n * 1000000000
    if nsec < 0 then ⟨sec + n - 1, nsec + 1000000000⟩ else ⟨sec + n, nsec⟩
  else ⟨sec, nsec⟩

def encodeTime (unix nanos : Int64) : List UInt8 :=
  timeMarker :: (encodeVarintAscending unix ++ encodeVarintAscending nanos)

/-- `EncodeTimeAscending`. -/
def encodeTimeAscending (t : Time) : List UInt8 := encodeTime t.unix t.nanosecond

/-- `EncodeTimeDescending`. -/
def encodeTimeDescending (t : Time) : List UInt8 := encodeTime (~~~ t.unix) (~~~ t.nanosecond)

/-- Two varints after a marker. -/
def decodeTwo (marker : UInt8) : List UInt8 → Except Failure (List UInt8 × Int64 × Int64)
  | [] => .error .markerMissing
  | m :: b =>
    if m ≠ marker then .error .markerMissing
    else do
      let (b, first) ← decodeVarintAscending b
      let (b, second) ← decodeVarintAscending b
      .ok (b, first, second)

/-- `DecodeTimeAscending`. -/
def decodeTimeAscending (b : List UInt8) : Except Failure (List UInt8 × Time) := do
  let (b, sec, nsec) ← decodeTwo timeMarker b
  .ok (b, unixTime sec nsec)

/-- `DecodeTimeDescending`. -/
def decodeTimeDescending (b : List UInt8) : Except Failure (List UInt8 × Time) := do
  let (b, sec, nsec) ← decodeTwo timeMarker b
  .ok (b, unixTime (~~~ sec) (~~~ nsec))

/-- `timetz.TimeTZ`: microseconds of the day, and the offset with its sign reversed. -/
structure TimeTZ where
  timeOfDay : Int64
  offsetSecs : Int32
  deriving DecidableEq, Repr

def offsetSecsToMicros : Int64 := 1000000

def encodeTimeTZ (unixMicros : Int64) (offsetSecs : Int32) : List UInt8 :=
  timeTZMarker :: (encodeVarintAscending unixMicros ++ encodeVarintAscending offsetSecs.toInt64)

/-- `EncodeTimeTZAscending`. -/
def encodeTimeTZAscending (t : TimeTZ) : List UInt8 :=
  encodeTimeTZ (t.timeOfDay + t.offsetSecs.toInt64 * offsetSecsToMicros) t.offsetSecs

/-- `EncodeTimeTZDescending`. -/
def encodeTimeTZDescending (t : TimeTZ) : List UInt8 :=
  encodeTimeTZ (~~~ (t.timeOfDay + t.offsetSecs.toInt64 * offsetSecsToMicros)) (~~~ t.offsetSecs)

/-- `DecodeTimeTZAscending`. -/
def decodeTimeTZAscending (b : List UInt8) : Except Failure (List UInt8 × TimeTZ) := do
  let (b, unixMicros, offset) ← decodeTwo timeTZMarker b
  let offsetSecs := offset.toInt32
  .ok (b, ⟨unixMicros - offsetSecs.toInt64 * offsetSecsToMicros, offsetSecs⟩)

/-- `DecodeTimeTZDescending`. -/
def decodeTimeTZDescending (b : List UInt8) : Except Failure (List UInt8 × TimeTZ) := do
  let (b, unixMicros, offset) ← decodeTwo timeTZMarker b
  let offsetSecs := offset.toInt32
  .ok (b, ⟨~~~ unixMicros - (~~~ offsetSecs).toInt64 * offsetSecsToMicros, ~~~ offsetSecs⟩)

/-! ## Durations -/

/-- `duration.Duration`. -/
structure Duration where
  months : Int64
  days : Int64
  nanos : Int64
  deriving DecidableEq, Repr

def nanosInDay : Int64 := 86400000000000

def nanosInMonth : Int64 := 30 * nanosInDay

/-- `arith.AddWithOverflow`. -/
def addWithOverflow (a b : Int64) : Except Failure Int64 :=
  if b > 0 ∧ a > Int64.maxValue - b then .error .encodeOverflow
  else if b < 0 ∧ a < Int64.minValue - b then .error .encodeOverflow
  else .ok (a + b)

/-- `arith.MulHalfPositiveWithOverflow`. -/
def mulHalfPositiveWithOverflow (a b : Int64) : Except Failure Int64 :=
  if a ≥ 0 then
    if a > Int64.maxValue / b then .error .encodeOverflow else .ok (a * b)
  else if a < Int64.minValue / b then .error .encodeOverflow
  else .ok (a * b)

/-- `Duration.Encode`: the total in nanoseconds, which may overflow, the months and the
days. -/
def Duration.encode (d : Duration) : Except Failure (Int64 × Int64 × Int64) := do
  let monthNanos ← mulHalfPositiveWithOverflow d.months nanosInMonth
  let dayNanos ← mulHalfPositiveWithOverflow d.days nanosInDay
  let totalNanos ← addWithOverflow monthNanos dayNanos
  let totalNanos ← addWithOverflow totalNanos d.nanos
  .ok (totalNanos, d.months, d.days)

/-- `duration.Decode`. -/
def Duration.decode (sortNanos months days : Int64) : Duration :=
  { months, days, nanos := sortNanos - months * nanosInMonth - days * nanosInDay }

/-- `EncodeDurationAscending`. -/
def encodeDurationAscending (d : Duration) : Except Failure (List UInt8) := do
  let (sortNanos, months, days) ← d.encode
  .ok (durationMarker :: (encodeVarintAscending sortNanos ++ (encodeVarintAscending months ++
    encodeVarintAscending days)))

/-- `EncodeDurationDescending`. -/
def encodeDurationDescending (d : Duration) : Except Failure (List UInt8) := do
  let (sortNanos, months, days) ← d.encode
  .ok (durationMarker :: (encodeVarintDescending sortNanos ++ (encodeVarintDescending months ++
    encodeVarintDescending days)))

/-- `DecodeDurationAscending` and its descending version, by the decoder of the integers. -/
def decodeDuration (decodeVarint : List UInt8 → Except Failure (List UInt8 × Int64)) :
    List UInt8 → Except Failure (List UInt8 × Duration)
  | [] => .error .markerMissing
  | m :: b =>
    if m ≠ durationBigNegMarker ∧ m ≠ durationMarker ∧ m ≠ durationBigPosMarker then
      .error .markerMissing
    else do
      let (b, sortNanos) ← decodeVarint b
      let (b, months) ← decodeVarint b
      let (b, days) ← decodeVarint b
      .ok (b, Duration.decode sortNanos months days)

/-- `DecodeDurationAscending`. -/
def decodeDurationAscending (b : List UInt8) : Except Failure (List UInt8 × Duration) :=
  decodeDuration decodeVarintAscending b

/-- `DecodeDurationDescending`. -/
def decodeDurationDescending (b : List UInt8) : Except Failure (List UInt8 × Duration) :=
  decodeDuration decodeVarintDescending b

/-! ## Bit arrays -/

/-- `bitarray.BitArray`: words of 64 bits and how many bits of the last one are used. -/
structure BitArray where
  words : List UInt64
  lastBitsUsed : UInt8
  lastBitsUsed_le : lastBitsUsed.toNat ≤ 64
  deriving DecidableEq

/-- `FromEncodingParts`. -/
def fromEncodingParts (words : List UInt64) (lastBitsUsed : UInt64) : Except Failure BitArray :=
  if h : lastBitsUsed.toNat > 64 then .error (.lastBitsUsedExceeded lastBitsUsed)
  else .ok ⟨words, lastBitsUsed.toUInt8, by
    rw [UInt64.toNat_toUInt8]
    omega⟩

/-- A bit array by the encoder of its words. -/
def encodeBitArray (marker terminator : UInt8) (encodeUvarint : UInt64 → List UInt8)
    (d : BitArray) : List UInt8 :=
  marker :: (d.words.flatMap encodeUvarint ++
    terminator :: encodeUvarint d.lastBitsUsed.toUInt64)

/-- `EncodeBitArrayAscending`. -/
def encodeBitArrayAscending (d : BitArray) : List UInt8 :=
  encodeBitArray bitArrayMarker bitArrayDataTerminator encodeUvarintAscending d

/-- `EncodeBitArrayDescending`. -/
def encodeBitArrayDescending (d : BitArray) : List UInt8 :=
  encodeBitArray bitArrayDescMarker bitArrayDataDescTerminator encodeUvarintDescending d

/-- `getBitArrayWordsLen`: the number of words and their length. -/
def getBitArrayWordsLen (b : List UInt8) (term : UInt8) : Except Failure (Nat × Nat) :=
  measureUntil getVarintLen term (.bitArrayTooShort b.length) (b.length + 1) b

def decodeWords (decodeUvarint : List UInt8 → Except Failure (List UInt8 × UInt64)) :
    Nat → List UInt8 → Except Failure (List UInt8 × List UInt64)
  | 0, b => .ok (b, [])
  | n + 1, b => do
      let (b, w) ← decodeUvarint b
      let (b, words) ← decodeWords decodeUvarint n b
      .ok (b, w :: words)

/-- A bit array by the decoder of its words. -/
def decodeBitArray (marker terminator : UInt8)
    (decodeUvarint : List UInt8 → Except Failure (List UInt8 × UInt64)) :
    List UInt8 → Except Failure (List UInt8 × BitArray)
  | [] => .error .markerMissing
  | m :: b =>
    if m ≠ marker then .error .markerMissing
    else do
      let (numWords, _) ← getBitArrayWordsLen b terminator
      let (b, words) ← decodeWords decodeUvarint numWords b
      match b with
      | [] => .error .bitArrayTerminatorMissing
      | t :: b =>
        if t ≠ terminator then .error .bitArrayTerminatorMissing
        else do
          let (b, lastVal) ← decodeUvarint b
          let ba ← fromEncodingParts words lastVal
          .ok (b, ba)

/-- `DecodeBitArrayAscending`. -/
def decodeBitArrayAscending (b : List UInt8) : Except Failure (List UInt8 × BitArray) :=
  decodeBitArray bitArrayMarker bitArrayDataTerminator decodeUvarintAscending b

/-- `DecodeBitArrayDescending`. -/
def decodeBitArrayDescending (b : List UInt8) : Except Failure (List UInt8 × BitArray) :=
  decodeBitArray bitArrayDescMarker bitArrayDataDescTerminator decodeUvarintDescending b

/-! ## Bytes read back -/

/-- The escapes tell the terminator from an escaped byte, which they keep. -/
structure Escapes.Proper (e : Escapes) : Prop where
  escaped00_ne : e.escaped00 ≠ e.escapedTerm
  escapedFF_eq : e.escapedFF = e.escape

theorem proper_ascending : ascendingBytesEscapes.Proper := ⟨by decide, by decide⟩

theorem proper_descending : descendingBytesEscapes.Proper := ⟨by decide, by decide⟩

section Escaping

variable {e : Escapes}

theorem unescape_plain {c : UInt8} (hc : c ≠ e.escape) (b : List UInt8) :
    unescape e (c :: b) = unescape e b >>= fun r => .ok (r.1, c :: r.2) := by
  rw [unescape.eq_def]
  simp only [if_neg hc]

theorem escapedLength_plain {c : UInt8} (hc : c ≠ e.escape) (skipped : Nat) (b : List UInt8) :
    escapedLength e skipped (c :: b) = escapedLength e (skipped + 1) b := by
  rw [escapedLength.eq_def]
  simp only [if_neg hc]

theorem unescape_escapeBytes (he : e.Proper) (data s : List UInt8) :
    unescape e (escapeBytes e data ++ e.escape :: e.escapedTerm :: s) = .ok (s, data) := by
  fun_induction escapeBytes e data with
  | case1 => simp [unescape]
  | case2 data ih =>
    simp only [cons_append, unescape, if_true, if_neg he.escaped00_ne, ne_eq,
      not_true_eq_false, if_false, ih]
    rw [he.escapedFF_eq]
    rfl
  | case3 d data hd ih =>
    rw [cons_append, unescape_plain hd, ih]
    rfl

theorem escapedLength_escapeBytes (he : e.Proper) (data s : List UInt8) (skipped : Nat) :
    escapedLength e skipped (escapeBytes e data ++ e.escape :: e.escapedTerm :: s) =
      .ok (skipped + (escapeBytes e data).length + 2) := by
  fun_induction escapeBytes e data generalizing skipped with
  | case1 => simp [escapedLength]
  | case2 data ih =>
    simp only [cons_append, escapedLength, if_true, if_neg he.escaped00_ne, ih, length_cons]
    congr 1
    omega
  | case3 d data hd ih =>
    rw [cons_append, escapedLength_plain hd, ih, length_cons]
    congr 1
    omega

/-- Complementing escaped bytes is escaping the complemented ones. -/
theorem map_complement_escapeBytes (data : List UInt8) :
    (escapeBytes ascendingBytesEscapes data).map (~~~ ·) =
      escapeBytes descendingBytesEscapes (data.map (~~~ ·)) := by
  fun_induction escapeBytes ascendingBytesEscapes data with
  | case1 => rfl
  | case2 data ih =>
    simp only [map_cons, ih]
    rfl
  | case3 d data hd ih =>
    have hd' : ~~~ d ≠ descendingBytesEscapes.escape := fun h0 => hd (UInt8.not_inj.mp h0)
    simp only [escapeBytes, map_cons, ih, if_neg hd']

theorem encodeBytesDescending_eq (data : List UInt8) :
    encodeBytesDescending data = bytesDescMarker ::
      encodeBytesWithTerminator descendingBytesEscapes (data.map (~~~ ·)) := by
  unfold encodeBytesDescending encodeBytesWithTerminator
  rw [map_append, map_complement_escapeBytes]
  rfl

theorem decodeBytesInternal_encode (he : e.Proper) (data : List UInt8) :
    Reads (decodeBytesInternal e) (e.marker :: encodeBytesWithTerminator e data) data := by
  intro s
  rw [cons_append, encodeBytesWithTerminator, append_assoc]
  show (if e.marker ≠ e.marker then _ else unescape e _) = _
  rw [if_neg (by simp)]
  exact unescape_escapeBytes he data s

theorem getBytesLength_encode (he : e.Proper) (marker : UInt8) (data : List UInt8) :
    Measures (getBytesLength e) (marker :: encodeBytesWithTerminator e data) := by
  intro s
  rw [cons_append, encodeBytesWithTerminator, append_assoc]
  show escapedLength e 1 _ = _
  rw [cons_append, cons_append, nil_append, escapedLength_escapeBytes he]
  simp only [length_cons, length_append, length_nil]
  congr 1
  omega

/-- Validating goes through the same cases as decoding. -/
theorem validateUnescape_eq (b : List UInt8) :
    validateUnescape e b = (unescape e b).map Prod.fst := by
  fun_induction validateUnescape e b with
  | case1 => rfl
  | case2 | case3 => simp [unescape, Except.map]
  | case4 v b hv hbad => simp [unescape, hv, hbad, Except.map]
  | case5 v b hv hgood ih =>
    rw [ih]
    simp only [unescape, if_true, if_neg hv, if_neg hgood]
    cases unescape e b <;> rfl
  | case6 c b hc ih =>
    rw [ih, unescape_plain hc]
    cases unescape e b <;> rfl

theorem validateDecodeBytesInternal_eq (b : List UInt8) :
    validateDecodeBytesInternal e b = (decodeBytesInternal e b).map Prod.fst := by
  cases b with
  | nil => rfl
  | cons m b =>
    simp only [validateDecodeBytesInternal, decodeBytesInternal]
    split_ifs
    · rfl
    · exact validateUnescape_eq b

variable {x y : List UInt8}

/-- An escaped byte string sorts as the string does, whatever follows the terminator. -/
theorem encodeBytesWithTerminator_precedes (h : x < y) :
    Precedes (encodeBytesWithTerminator ascendingBytesEscapes x)
      (encodeBytesWithTerminator ascendingBytesEscapes y) := by
  have hpos : ∀ d : UInt8, d ≠ ascendingBytesEscapes.escape → ascendingBytesEscapes.escape < d :=
    fun d hd => lt_of_le_of_ne (not_lt.mp (Lib.UInt8.not_lt_zero d)) (Ne.symm hd)
  unfold encodeBytesWithTerminator
  induction x generalizing y with
  | nil =>
    cases y with
    | nil => exact absurd h (lt_irrefl _)
    | cons d y =>
      -- The terminator is below an escaped byte at its second byte, and below others.
      by_cases hd : d = ascendingBytesEscapes.escape
      · simp only [escapeBytes, if_pos hd, nil_append, cons_append]
        exact (precedes_of_head_lt (by decide)).cons _
      · simp only [escapeBytes, if_neg hd, nil_append, cons_append]
        exact precedes_of_head_lt (hpos d hd)
  | cons a x ih =>
    cases y with
    | nil => exact absurd h (not_lt_nil _)
    | cons b y =>
      rcases cons_lt_cons_iff.mp h with hab | ⟨rfl, hxy⟩
      · have hb : b ≠ ascendingBytesEscapes.escape := by
          rintro rfl
          exact Lib.UInt8.not_lt_zero a hab
        by_cases ha : a = ascendingBytesEscapes.escape
        · simp only [escapeBytes, if_pos ha, if_neg hb, cons_append]
          exact precedes_of_head_lt (hpos b hb)
        · simp only [escapeBytes, if_neg ha, if_neg hb, cons_append]
          exact precedes_of_head_lt hab
      · by_cases ha : a = ascendingBytesEscapes.escape
        · simp only [escapeBytes, if_pos ha, cons_append]
          exact ((ih hxy).cons _).cons _
        · simp only [escapeBytes, if_neg ha, cons_append]
          exact (ih hxy).cons _

theorem length_escapeBytes (data : List UInt8) :
    (escapeBytes e data).length = data.length + data.count e.escape := by
  fun_induction escapeBytes e data with
  | case1 => rfl
  | case2 data ih =>
    simp only [length_cons, ih, count_cons_self]
    omega
  | case3 d data hd ih =>
    simp only [length_cons, ih, count_cons_of_ne hd]
    omega

theorem escapeBytes_append (x y : List UInt8) :
    escapeBytes e (x ++ y) = escapeBytes e x ++ escapeBytes e y := by
  fun_induction escapeBytes e x with
  | case1 => rfl
  | case2 x ih => simp only [cons_append, escapeBytes, if_true, ih]
  | case3 d x hd ih => simp only [cons_append, escapeBytes, if_neg hd, ih]

theorem reads_bytesAscending (data : List UInt8) :
    Reads decodeBytesAscending (encodeBytesAscending data) data :=
  decodeBytesInternal_encode proper_ascending data

theorem reads_bytesDescending (data : List UInt8) :
    Reads decodeBytesDescending (encodeBytesDescending data) data := by
  intro s
  have hread := decodeBytesInternal_encode proper_descending (data.map (~~~ ·)) s
  rw [encodeBytesDescending_eq, decodeBytesDescending]
  rw [show descendingBytesEscapes.marker = bytesDescMarker from rfl] at hread
  rw [hread]
  show Except.ok (s, (data.map (~~~ ·)).map (~~~ ·)) = _
  rw [map_complement_complement]

theorem encodeBytesAscending_precedes (h : x < y) :
    Precedes (encodeBytesAscending x) (encodeBytesAscending y) :=
  (encodeBytesWithTerminator_precedes h).cons _

theorem encodeBytesDescending_precedes (h : x < y) :
    Precedes (encodeBytesDescending y) (encodeBytesDescending x) :=
  ((encodeBytesWithTerminator_precedes h).map_anti strictAnti_complement).cons _

/-- Escaped byte strings sort as the strings, or the other way round, whatever follows them;
each is read back, or skipped, up to what follows; the sizes are those of the codes; and the
next string has its own encoder. -/
theorem bytes_keys : (∀ x y s t : List UInt8, x < y →
      encodeBytesAscending x ++ s < encodeBytesAscending y ++ t ∧
      encodeBytesDescending y ++ t < encodeBytesDescending x ++ s) ∧
    (∀ x s : List UInt8, decodeBytesAscending (encodeBytesAscending x ++ s) = .ok (s, x) ∧
      decodeBytesDescending (encodeBytesDescending x ++ s) = .ok (s, x)) ∧
    (∀ b rest : List UInt8, validateDecodeBytesAscending b = .ok rest ↔
      ∃ x, decodeBytesAscending b = .ok (rest, x)) ∧
    ∀ x : List UInt8, encodeBytesSize x = (encodeBytesAscending x).length ∧
      encodeBytesSize x = (encodeBytesDescending x).length ∧
      encodeNextBytesSize x = (encodeNextBytesAscending x).length ∧
      encodeNextBytesAscending x = encodeBytesAscending (x ++ [0]) := by
  refine ⟨fun x y s t h => ?_, fun x s => ?_, fun b rest => ?_, fun x => ?_⟩
  · exact ⟨(encodeBytesAscending_precedes h).append_lt s t,
      (encodeBytesDescending_precedes h).append_lt t s⟩
  · exact ⟨reads_bytesAscending x s, reads_bytesDescending x s⟩
  · rw [validateDecodeBytesAscending, validateDecodeBytesInternal_eq, decodeBytesAscending]
    cases decodeBytesInternal ascendingBytesEscapes b with
    | error err => simp [Except.map]
    | ok r => simp [Except.map, Prod.ext_iff]
  · have hlen := length_escapeBytes (e := ascendingBytesEscapes) x
    refine ⟨?_, ?_, ?_, ?_⟩
    · simp only [encodeBytesSize, encodeBytesAscending, encodeBytesWithTerminator,
        List.length_cons, List.length_append, List.length_nil, hlen]
      omega
    · simp only [encodeBytesSize, encodeBytesDescending, encodeBytesWithTerminator,
        List.length_cons, List.length_map, List.length_append, List.length_nil, hlen]
      omega
    · simp only [encodeNextBytesSize, encodeNextBytesAscending, List.length_cons,
        List.length_append, List.length_nil, hlen]
      omega
    · rw [encodeBytesAscending, encodeBytesWithTerminator, escapeBytes_append, List.append_assoc]
      rfl

/-- One string inside another, with what follows it larger. -/
theorem bytes_keys_inside : ([0] : List UInt8) < [0, 0] ∧
      encodeBytesAscending [0] ++ [255] < encodeBytesAscending [0, 0] ++ [] :=
  ⟨by decide, (bytes_keys.1 [0] [0, 0] [255] [] (by decide)).1⟩

end Escaping

/-! ## Times and durations read back -/

theorem reads_decodeTwo (marker : UInt8) (first second : Int64) : Reads (decodeTwo marker)
      (marker :: (encodeVarintAscending first ++ encodeVarintAscending second))
      (first, second) := by
  intro s
  rw [cons_append, append_assoc]
  simp only [decodeTwo, ne_eq, not_true_eq_false, if_false]
  rw [reads_varintAscending]
  simp only [bind, Except.bind]
  rw [reads_varintAscending]

theorem reads_timeAscending (t : Time) :
    Reads decodeTimeAscending (encodeTimeAscending t) (unixTime t.unix t.nanosecond) := by
  intro s
  rw [decodeTimeAscending, encodeTimeAscending, encodeTime, reads_decodeTwo]
  rfl

theorem reads_timeDescending (t : Time) :
    Reads decodeTimeDescending (encodeTimeDescending t) (unixTime t.unix t.nanosecond) := by
  intro s
  rw [decodeTimeDescending, encodeTimeDescending, encodeTime, reads_decodeTwo]
  show Except.ok (s, unixTime (~~~ ~~~ t.unix) (~~~ ~~~ t.nanosecond)) = _
  rw [Int64.not_not, Int64.not_not]

theorem reads_timeTZAscending (t : TimeTZ) :
    Reads decodeTimeTZAscending (encodeTimeTZAscending t) t := by
  intro s
  rw [decodeTimeTZAscending, encodeTimeTZAscending, encodeTimeTZ, reads_decodeTwo]
  simp only [bind, Except.bind, Int32.toInt32_toInt64, Int64.add_sub_cancel]

theorem reads_timeTZDescending (t : TimeTZ) :
    Reads decodeTimeTZDescending (encodeTimeTZDescending t) t := by
  intro s
  rw [decodeTimeTZDescending, encodeTimeTZDescending, encodeTimeTZ, reads_decodeTwo]
  simp only [bind, Except.bind, Int32.toInt32_toInt64, Int64.not_not, Int32.not_not,
    Int64.add_sub_cancel]

/-- `Decode` undoes `Encode`. -/
theorem Duration.decode_encode {d : Duration} {sortNanos months days : Int64}
    (h : d.encode = .ok (sortNanos, months, days)) : Duration.decode sortNanos months days = d := by
  obtain ⟨monthNanos, hmonth, h⟩ := bind_eq_ok.mp h
  obtain ⟨dayNanos, hday, h⟩ := bind_eq_ok.mp h
  obtain ⟨total, htotal, h⟩ := bind_eq_ok.mp h
  obtain ⟨total', htotal', h⟩ := bind_eq_ok.mp h
  have hmul : ∀ {a b r}, mulHalfPositiveWithOverflow a b = .ok r → r = a * b := by
    intro a b r hr
    unfold mulHalfPositiveWithOverflow at hr
    split_ifs at hr <;> exact (Except.ok.inj hr).symm
  have hadd : ∀ {a b r}, addWithOverflow a b = .ok r → r = a + b := by
    intro a b r hr
    unfold addWithOverflow at hr
    split_ifs at hr
    exact (Except.ok.inj hr).symm
  obtain ⟨rfl, rfl, rfl⟩ : total' = sortNanos ∧ d.months = months ∧ d.days = days := by
    simpa using h
  rw [hadd htotal', hadd htotal, hmul hmonth, hmul hday, Duration.decode]
  have hnanos : d.months * nanosInMonth + d.days * nanosInDay + d.nanos -
      d.months * nanosInMonth - d.days * nanosInDay = d.nanos := by
    grind
  rw [hnanos]

theorem reads_decodeDuration {decodeVarint : List UInt8 → Except Failure (List UInt8 × Int64)}
    {encodeVarint : Int64 → List UInt8} (hread : ∀ v, Reads decodeVarint (encodeVarint v) v)
    {d : Duration} {sortNanos months days : Int64} (h : d.encode = .ok (sortNanos, months, days)) :
    Reads (decodeDuration decodeVarint)
      (durationMarker :: (encodeVarint sortNanos ++ (encodeVarint months ++ encodeVarint days)))
      d := by
  intro s
  rw [cons_append, append_assoc, append_assoc]
  have hmarker : ¬ (durationMarker ≠ durationBigNegMarker ∧ durationMarker ≠ durationMarker ∧
      durationMarker ≠ durationBigPosMarker) := by decide
  simp only [decodeDuration, if_neg hmarker]
  rw [hread]
  simp only [bind, Except.bind]
  rw [hread]
  simp only
  rw [hread]
  simp only [Duration.decode_encode h]

/-! ## The order of times and durations -/

theorem ints_lt (m : UInt8) (s t : List UInt8) {xs ys : List Int64}
    (hlen : xs.length = ys.length) (h : xs < ys) :
    m :: xs.flatMap encodeVarintAscending ++ s < m :: ys.flatMap encodeVarintAscending ++ t ∧
    m :: ys.flatMap encodeVarintDescending ++ t < m :: xs.flatMap encodeVarintDescending ++ s := by
  have hcode : ∀ {x y : Int64}, x < y →
      Precedes (encodeVarintAscending x) (encodeVarintAscending y) ∧
        Precedes (encodeVarintDescending y) (encodeVarintDescending x) := by
    intro x y hlt
    have hlt := Int64.lt_iff_toInt_lt.mp hlt
    exact ⟨encodeVarintAscending_precedes hlt, encodeVarintDescending_precedes hlt⟩
  obtain ⟨hasc, hdesc⟩ := precedes_flatMap (r := (· < ·)) hcode hlen h
  exact ⟨(hasc.cons m).append_lt s t, (hdesc.cons m).append_lt t s⟩

/-- Times sort by seconds and nanoseconds, times with a zone by instant and offset, and
durations by length, months and days, whatever follows. Descending keys sort the other way. -/
theorem temporal_keys (s t : List UInt8) :
    (∀ x y : Time, [x.unix, x.nanosecond] < [y.unix, y.nanosecond] →
      encodeTimeAscending x ++ s < encodeTimeAscending y ++ t ∧
      encodeTimeDescending y ++ t < encodeTimeDescending x ++ s) ∧
    (∀ x y : TimeTZ,
      [x.timeOfDay + x.offsetSecs.toInt64 * offsetSecsToMicros, x.offsetSecs.toInt64] <
        [y.timeOfDay + y.offsetSecs.toInt64 * offsetSecsToMicros, y.offsetSecs.toInt64] →
      encodeTimeTZAscending x ++ s < encodeTimeTZAscending y ++ t ∧
      encodeTimeTZDescending y ++ t < encodeTimeTZDescending x ++ s) ∧
    ∀ x y m n, Duration.encode x = .ok m → y.encode = .ok n →
      [m.1, m.2.1, m.2.2] < [n.1, n.2.1, n.2.2] → ∃ ax ay dx dy,
        encodeDurationAscending x = .ok ax ∧ encodeDurationAscending y = .ok ay ∧
        encodeDurationDescending x = .ok dx ∧ encodeDurationDescending y = .ok dy ∧
        ax ++ s < ay ++ t ∧ dy ++ t < dx ++ s := by
  refine ⟨fun x y h => ?_, fun x y h => ?_, fun x y m n hx hy h => ?_⟩
  · have hlt := ints_lt timeMarker s t (by simp) h
    simp only [flatMap_cons, flatMap_nil, append_nil] at hlt
    exact hlt
  · have hlt := ints_lt timeTZMarker s t (by simp) h
    have hnot : ∀ v : Int32, (~~~ v).toInt64 = ~~~ v.toInt64 := by
      simp [← Int64.toBitVec_inj, BitVec.signExtend_not]
    simp only [flatMap_cons, flatMap_nil, append_nil] at hlt
    simp only [encodeTimeTZDescending, encodeTimeTZ, hnot]
    exact hlt
  · have hlt := ints_lt durationMarker s t (by simp) h
    simp only [flatMap_cons, flatMap_nil, append_nil] at hlt
    rw [encodeDurationAscending, encodeDurationAscending, encodeDurationDescending,
      encodeDurationDescending, hx, hy]
    exact ⟨_, _, _, _, rfl, rfl, rfl, rfl, hlt⟩

theorem temporal_keys_small :
    encodeTimeAscending ⟨-1, 999⟩ ++ [7] < encodeTimeAscending ⟨0, 5⟩ ++ [] ∧
    encodeTimeTZDescending ⟨5, 1⟩ ++ [] < encodeTimeTZDescending ⟨5, 0⟩ ++ [7] ∧
    ∃ ax ay, encodeDurationAscending ⟨1, 0, 0⟩ = .ok ax ∧
      encodeDurationAscending ⟨0, 31, 0⟩ = .ok ay ∧ ax ++ [7] < ay ++ [] := by
  obtain ⟨htime, htz, hdur⟩ := temporal_keys [7] []
  obtain ⟨ax, ay, -, -, hx, hy, -, -, h, -⟩ :=
    hdur ⟨1, 0, 0⟩ ⟨0, 31, 0⟩ _ _ rfl rfl (by decide)
  exact ⟨(htime _ _ (by decide)).1, (htz _ _ (by decide)).2, ax, ay, hx, hy, h⟩

/-! ## Bit arrays read back -/

section BitArrays

variable {marker terminator : UInt8} {encodeUvarint : UInt64 → List UInt8}
  {decodeUvarint : List UInt8 → Except Failure (List UInt8 × UInt64)}

theorem reads_decodeWords (hread : ∀ v, Reads decodeUvarint (encodeUvarint v) v)
    (words : List UInt64) :
    Reads (decodeWords decodeUvarint words.length) (words.flatMap encodeUvarint) words := by
  induction words with
  | nil => intro s; rfl
  | cons w words ih =>
    intro s
    rw [flatMap_cons, append_assoc, length_cons]
    simp only [decodeWords]
    rw [hread]
    simp only [bind, Except.bind]
    rw [ih]

/-- The words are counted and measured: no integer starts with a terminator. -/
theorem getBitArrayWordsLen_words (hcode : ∀ v, IsVarint (encodeUvarint v))
    (hterm : terminator.toNat < intMin ∨ intMax < terminator.toNat) (words : List UInt64)
    (s : List UInt8) :
    getBitArrayWordsLen (words.flatMap encodeUvarint ++ terminator :: s) terminator =
      .ok (words.length, (words.flatMap encodeUvarint).length) := by
  have hflat : words.flatMap encodeUvarint = (words.map encodeUvarint).flatten := flatMap_def
  have hlen : (words.map encodeUvarint).length = words.length := length_map _
  rw [getBitArrayWordsLen, hflat, measureUntil_flatten, hlen]
  · intro c hc
    obtain ⟨v, -, rfl⟩ := mem_map.mp hc
    exact (hcode v).measures
  · intro c hc
    obtain ⟨v, -, rfl⟩ := mem_map.mp hc
    obtain ⟨t, c', heq, hlow, hhigh⟩ := (hcode v).head
    refine ⟨t, c', heq, fun h0 => ?_⟩
    rw [h0] at hlow hhigh
    omega
  · rw [length_append]
    omega

theorem reads_bitArray (hread : ∀ v, Reads decodeUvarint (encodeUvarint v) v)
    (hcode : ∀ v, IsVarint (encodeUvarint v))
    (hterm : terminator.toNat < intMin ∨ intMax < terminator.toNat) (d : BitArray) :
    Reads (decodeBitArray marker terminator decodeUvarint)
      (encodeBitArray marker terminator encodeUvarint d) d := by
  intro s
  have hlast : d.lastBitsUsed.toUInt64.toNat = d.lastBitsUsed.toNat := by simp
  have hle := d.lastBitsUsed_le
  have hparts : fromEncodingParts d.words d.lastBitsUsed.toUInt64 = .ok d := by
    unfold fromEncodingParts
    rw [dif_neg (by omega)]
    simp
  rw [encodeBitArray, cons_append, append_assoc, cons_append]
  simp only [decodeBitArray, ne_eq, not_true_eq_false, if_false]
  rw [getBitArrayWordsLen_words hcode hterm]
  simp only [bind, Except.bind]
  rw [reads_decodeWords hread]
  simp only [not_true_eq_false, if_false]
  rw [hread]
  simp only [hparts]

theorem reads_bitArrayAscending (d : BitArray) :
    Reads decodeBitArrayAscending (encodeBitArrayAscending d) d :=
  reads_bitArray reads_uvarintAscending isVarint_uvarintAscending (by decide) d

theorem reads_bitArrayDescending (d : BitArray) :
    Reads decodeBitArrayDescending (encodeBitArrayDescending d) d :=
  reads_bitArray reads_uvarintDescending isVarint_uvarintDescending (by decide) d

end BitArrays

end Cockroach.Encoding
