import Cockroach.Lib.Bytes
import Cockroach.Lib.Outcome
import Cockroach.Util.Hlc

/-!
# MVCC values (`mvcc_value.go`)

The value of a version is stored as it is or, with a header, behind the length of the header,
a sentinel and the header. The fifth byte tells the two forms apart: it is the tag of the value
or the sentinel. Three decoders read them, with bounds checks of their own: for all of it, for
the value alone and for whether the value is a tombstone.

The size of what stands before the value is computed in 32 bits, so that a length from
`2 ^ 32 - 5` on wraps around. `mvccValue_decoding` says that it is for these lengths alone that
a decoder panics, and for which values what is encoded is decoded.
-/

namespace Cockroach.Storage

open Lib Hlc List

/-- `roachpb.Value`. -/
structure Value where
  rawBytes : List UInt8 := []
  timestamp : Timestamp := {}
  deriving DecidableEq

/-- `MVCCValue`, over the type of its header. -/
structure MVCCValue (H : Type) where
  mvccValueHeader : H
  value : Value
  deriving DecidableEq

variable {H : Type}

/-- `MVCCValue.IsTombstone`. -/
def MVCCValue.isTombstone (v : MVCCValue H) : Bool := v.value.rawBytes.length == 0

/-- The generated methods of `MVCCValueHeader`, and its zero value. -/
structure HeaderCodec (H : Type) where
  empty : H
  size : H → Nat
  marshalToSizedBuffer : H → Option (List UInt8)
  unmarshal : List UInt8 → Option H

/-- A header is marshalled to as many bytes as its size says, and read back from them. -/
def HeaderCodec.RoundTrips (c : HeaderCodec H) : Prop :=
  ∀ h, ∃ bs, c.marshalToSizedBuffer h = some bs ∧ bs.length = c.size h ∧ c.unmarshal bs = some h

/-- What stops an encoder or a decoder of values. -/
inductive ValueFailure where
  /-- a run-time panic: index or slice bounds out of range -/
  | outOfRange
  /-- "invalid encoded mvcc value, missing tag" -/
  | missingTag
  /-- "invalid encoded mvcc value, missing header" -/
  | missingHeader
  /-- "marshaling MVCCValueHeader" -/
  | marshaling
  /-- "unmarshaling MVCCValueHeader" -/
  | unmarshaling
  deriving DecidableEq

def extendedLenSize : Nat := 4
def tagPos : Nat := extendedLenSize
def tagSize : Nat := 1
def extendedPreludeSize : Nat := extendedLenSize + tagSize
def extendedEncodingSentinel : UInt8 := 101

section Encode

variable [DecidableEq H] (c : HeaderCodec H) (disableSimpleValueEncoding : Bool)

/-- `encodedMVCCValueSize`. -/
def encodedMVCCValueSize (v : MVCCValue H) : Nat :=
  if v.mvccValueHeader = c.empty ∧ !disableSimpleValueEncoding then v.value.rawBytes.length
  else extendedPreludeSize + c.size v.mvccValueHeader + v.value.rawBytes.length

/-- `EncodeMVCCValue`. -/
def encodeMVCCValue (v : MVCCValue H) : Except ValueFailure (List UInt8) :=
  if v.mvccValueHeader = c.empty ∧ !disableSimpleValueEncoding then .ok v.value.rawBytes
  else
    match c.marshalToSizedBuffer v.mvccValueHeader with
    | none => .error .marshaling
    | some header =>
      .ok (bigEndian extendedLenSize (c.size v.mvccValueHeader) ++ extendedEncodingSentinel ::
        (header ++ v.value.rawBytes))

end Encode

/-- `binary.BigEndian.Uint32`. -/
def bigEndianUint32 (buf : List UInt8) : Except ValueFailure Nat :=
  if buf.length < 4 then .error .outOfRange else .ok (uint (buf.take 4))

/-- `buf[lo:hi]`. -/
def slice (buf : List UInt8) (lo hi : Nat) : Except ValueFailure (List UInt8) :=
  if lo ≤ hi ∧ hi ≤ buf.length then .ok ((buf.take hi).drop lo) else .error .outOfRange

/-- How the decoders tell the forms apart: without bytes, with a tag, with the sentinel. -/
def readForm {α : Type} (buf : List UInt8) (tombstone simple : α)
    (extended : Except ValueFailure α) : Except ValueFailure α :=
  if buf.length = 0 then .ok tombstone
  else if buf.length ≤ tagPos then .error .missingTag
  else if buf[tagPos]? ≠ some extendedEncodingSentinel then .ok simple
  else extended

/-- How they find the end of the header, which is a sum in 32 bits. -/
def readHeaderSize {α : Type} (buf : List UInt8) (f : Nat → Except ValueFailure α) :
    Except ValueFailure α := do
  let headerLen ← bigEndianUint32 buf
  let headerSize := (extendedPreludeSize + headerLen) % 2 ^ 32
  if buf.length < headerSize then .error .missingHeader else f headerSize

/-- `tryDecodeSimpleMVCCValue`. -/
def tryDecodeSimpleMVCCValue (c : HeaderCodec H) (buf : List UInt8) :
    Except ValueFailure (Option (MVCCValue H)) :=
  readForm buf (some ⟨c.empty, {}⟩) (some ⟨c.empty, { rawBytes := buf }⟩) (.ok none)

/-- `decodeExtendedMVCCValue`. -/
def decodeExtendedMVCCValue (c : HeaderCodec H) (buf : List UInt8) :
    Except ValueFailure (MVCCValue H) :=
  readHeaderSize buf fun headerSize => do
    let header ← slice buf extendedPreludeSize headerSize
    match c.unmarshal header with
    | none => .error .unmarshaling
    | some h => .ok ⟨h, { rawBytes := ← slice buf headerSize buf.length }⟩

/-- `DecodeMVCCValue`. -/
def decodeMVCCValue (c : HeaderCodec H) (buf : List UInt8) : Except ValueFailure (MVCCValue H) := do
  match ← tryDecodeSimpleMVCCValue c buf with
  | some v => .ok v
  | none => decodeExtendedMVCCValue c buf

/-- `DecodeValueFromMVCCValue`. -/
def decodeValueFromMVCCValue (buf : List UInt8) : Except ValueFailure Value :=
  readForm buf {} { rawBytes := buf } <| readHeaderSize buf fun headerSize => do
    .ok { rawBytes := ← slice buf headerSize buf.length }

/-- `EncodedMVCCValueIsTombstone`. -/
def encodedMVCCValueIsTombstone (buf : List UInt8) : Except ValueFailure Bool :=
  readForm buf true false <| readHeaderSize buf fun headerSize =>
    .ok (buf.length == headerSize)

/-! ## What the decoders compute -/

variable {α : Type} {c : HeaderCodec H} {buf : List UInt8} {v : MVCCValue H}

theorem slice_eq {lo hi : Nat} (h : lo ≤ hi) (hhi : hi ≤ buf.length) :
    slice buf lo hi = .ok ((buf.take hi).drop lo) := if_pos ⟨h, hhi⟩

theorem slice_tail {n : Nat} (h : n ≤ buf.length) : slice buf n buf.length = .ok (buf.drop n) := by
  rw [slice_eq h le_rfl, take_length]

/-- What stored bytes are, with what `readForm` makes of them. -/
inductive Form (buf : List UInt8) : Prop
  | tombstone (h : buf.length = 0)
      (hr : ∀ {α : Type} (t s : α) e, readForm buf t s e = .ok t)
  | short (h : buf.length ≠ 0) (hle : buf.length ≤ tagPos)
      (hr : ∀ {α : Type} (t s : α) e, readForm buf t s e = .error .missingTag)
  | simple (h : tagPos < buf.length) (hs : buf[tagPos]? ≠ some extendedEncodingSentinel)
      (hr : ∀ {α : Type} (t s : α) e, readForm buf t s e = .ok s)
  | extended (h : tagPos < buf.length) (hs : buf[tagPos]? = some extendedEncodingSentinel)
      (hr : ∀ {α : Type} (t s : α) e, readForm buf t s e = e)

theorem readForm_extended (h : tagPos < buf.length)
    (hs : buf[tagPos]? = some extendedEncodingSentinel) (t s : α) (e : Except ValueFailure α) :
    readForm buf t s e = e := by
  unfold readForm
  rw [if_neg (Nat.ne_zero_of_lt h), if_neg (Nat.not_le.mpr h), if_neg (not_not.mpr hs)]

theorem form (buf : List UInt8) : Form buf := by
  by_cases h : tagPos < buf.length
  · by_cases hs : buf[tagPos]? = some extendedEncodingSentinel
    · exact .extended h hs (readForm_extended h hs)
    · refine .simple h hs fun t s e => ?_
      unfold readForm
      rw [if_neg (Nat.ne_zero_of_lt h), if_neg (Nat.not_le.mpr h), if_pos hs]
  · by_cases h0 : buf.length = 0
    · exact .tombstone h0 fun t s e => if_pos h0
    · have hle := Nat.not_lt.mp h
      exact .short h0 hle fun t s e => (if_neg h0).trans (if_pos hle)

/-- The length in front of a header. -/
def headerLen (buf : List UInt8) : Nat := uint (buf.take 4)

/-- Where the header ends for the decoders. -/
def headerEnd (buf : List UInt8) : Nat := (extendedPreludeSize + headerLen buf) % 2 ^ 32

theorem readHeaderSize_eq (h : tagPos < buf.length) (f : Nat → Except ValueFailure α) :
    readHeaderSize buf f =
      if buf.length < headerEnd buf then .error .missingHeader else f (headerEnd buf) := by
  have h4 : ¬ buf.length < 4 := fun hlt => absurd h (Nat.not_lt.mpr hlt.le)
  unfold readHeaderSize bigEndianUint32
  rw [if_neg h4]
  rfl

/-- A header whose end wraps around. -/
def Wraps (buf : List UInt8) : Prop :=
  buf[tagPos]? = some extendedEncodingSentinel ∧ 2 ^ 32 - extendedPreludeSize ≤ headerLen buf

theorem headerEnd_eq (h : headerLen buf < 2 ^ 32 - extendedPreludeSize) :
    headerEnd buf = extendedPreludeSize + headerLen buf := Nat.mod_eq_of_lt (by omega)

theorem headerEnd_lt (h : 2 ^ 32 - extendedPreludeSize ≤ headerLen buf) :
    headerEnd buf < extendedPreludeSize := by
  have hlt : headerLen buf < 256 ^ 4 := (uint_lt _).trans_le
    (Nat.pow_le_pow_right (by decide) (length_take_le _ _))
  have hsub : extendedPreludeSize + headerLen buf - 2 ^ 32 < 2 ^ 32 := by
    unfold extendedPreludeSize extendedLenSize tagSize at *
    omega
  unfold headerEnd
  rw [Nat.mod_eq_sub_mod (by omega), Nat.mod_eq_of_lt hsub]
  omega

/-- With a header that ends where it should, the bytes of the header are unmarshalled. -/
theorem decodeExtendedMVCCValue_eq (h : tagPos < buf.length) (hn : headerEnd buf ≤ buf.length)
    (hwrap : extendedPreludeSize ≤ headerEnd buf) :
    decodeExtendedMVCCValue c buf =
      match c.unmarshal ((buf.take (headerEnd buf)).drop extendedPreludeSize) with
      | none => .error .unmarshaling
      | some hd => .ok ⟨hd, { rawBytes := buf.drop (headerEnd buf) }⟩ := by
  unfold decodeExtendedMVCCValue
  rw [readHeaderSize_eq h, if_neg (Nat.not_lt.mpr hn), slice_eq hwrap hn, slice_tail hn]
  rfl

/-- What is found behind a sentinel: too few bytes, a header whose end wrapped around, or a
header. -/
theorem decodeExtendedMVCCValue_cases (c : HeaderCodec H) (h : tagPos < buf.length) :
    decodeExtendedMVCCValue c buf = .error .missingHeader ∨
    headerEnd buf < extendedPreludeSize ∧ decodeExtendedMVCCValue c buf = .error .outOfRange ∨
    (extendedPreludeSize ≤ headerEnd buf ∧ headerEnd buf ≤ buf.length) ∧
      (decodeExtendedMVCCValue c buf = .error .unmarshaling ∨
        ∃ hd, decodeExtendedMVCCValue c buf =
          .ok ⟨hd, { rawBytes := buf.drop (headerEnd buf) }⟩) := by
  by_cases hn : buf.length < headerEnd buf
  · left
    exact (readHeaderSize_eq h _).trans (if_pos hn)
  · by_cases hwrap : extendedPreludeSize ≤ headerEnd buf
    · refine .inr (.inr ⟨⟨hwrap, Nat.not_lt.mp hn⟩, ?_⟩)
      rw [decodeExtendedMVCCValue_eq h (Nat.not_lt.mp hn) hwrap]
      cases c.unmarshal _ with
      | none => exact .inl rfl
      | some hd => exact .inr ⟨hd, rfl⟩
    · refine .inr (.inl ⟨Nat.not_le.mp hwrap, ?_⟩)
      have hs : slice buf extendedPreludeSize (headerEnd buf) = .error .outOfRange :=
        if_neg fun hb => hwrap hb.1
      unfold decodeExtendedMVCCValue
      rw [readHeaderSize_eq h, if_neg hn, hs]
      rfl

theorem decodeMVCCValue_eq (c : HeaderCodec H) (buf : List UInt8) : decodeMVCCValue c buf =
      readForm buf ⟨c.empty, {}⟩ ⟨c.empty, { rawBytes := buf }⟩
        (decodeExtendedMVCCValue c buf) := by
  unfold decodeMVCCValue tryDecodeSimpleMVCCValue
  cases form buf with
  | tombstone _ hr | short _ _ hr | simple _ _ hr | extended _ _ hr => rw [hr, hr]; rfl

theorem decodeMVCCValue_eq_outOfRange_iff :
    decodeMVCCValue c buf = .error .outOfRange ↔ Wraps buf := by
  rw [decodeMVCCValue_eq]
  cases form buf with
  | tombstone h hr =>
    rw [hr]
    refine ⟨nofun, fun hw => ?_⟩
    rw [Wraps, eq_nil_of_length_eq_zero h] at hw
    cases hw.1
  | short _ hle hr =>
    rw [hr]
    refine ⟨nofun, fun hw => ?_⟩
    rw [Wraps, getElem?_eq_none hle] at hw
    cases hw.1
  | simple _ hs hr =>
    rw [hr]
    exact ⟨nofun, fun hw => absurd hw.1 hs⟩
  | extended hlen hs hr =>
    rw [hr]
    constructor
    · intro he
      refine ⟨hs, Nat.not_lt.mp fun hlt => ?_⟩
      rcases decodeExtendedMVCCValue_cases c hlen with h | ⟨hend, -⟩ | ⟨-, h | ⟨hd, h⟩⟩
      · cases h.symm.trans he
      · rw [headerEnd_eq hlt] at hend
        omega
      · cases h.symm.trans he
      · cases h.symm.trans he
    · -- the header that is checked for is shorter than what has been read already
      rintro ⟨-, hw⟩
      have hend := headerEnd_lt hw
      have hge : extendedPreludeSize ≤ buf.length := hlen
      have hbad : slice buf extendedPreludeSize (headerEnd buf) = .error .outOfRange :=
        if_neg fun hb => Nat.not_le.mpr hend hb.1
      unfold decodeExtendedMVCCValue
      rw [readHeaderSize_eq hlen, if_neg (by omega), hbad]
      rfl

/-- The two other decoders only slice where they have checked that there are bytes. -/
theorem readForm_ne_outOfRange {t s : α} {f : Nat → Except ValueFailure α}
    (hf : ∀ n ≤ buf.length, f n ≠ .error .outOfRange) :
    readForm buf t s (readHeaderSize buf f) ≠ .error .outOfRange := by
  cases form buf with
  | tombstone _ hr | short _ _ hr | simple _ _ hr => rw [hr]; nofun
  | extended hlen _ hr =>
    rw [hr, readHeaderSize_eq hlen]
    split_ifs with hn
    · nofun
    · exact hf _ (Nat.not_lt.mp hn)

theorem decoders_agree (h : decodeMVCCValue c buf = .ok v) :
    decodeValueFromMVCCValue buf = .ok v.value ∧
      encodedMVCCValueIsTombstone buf = .ok v.isTombstone := by
  rw [decodeMVCCValue_eq] at h
  unfold decodeValueFromMVCCValue encodedMVCCValueIsTombstone
  cases form buf with
  | tombstone _ hr =>
    cases (hr _ _ _).symm.trans h
    exact ⟨hr _ _ _, hr _ _ _⟩
  | short _ _ hr => cases (hr _ _ _).symm.trans h
  | simple hlt _ hr =>
    cases (hr _ _ _).symm.trans h
    refine ⟨hr _ _ _, (hr _ _ _).trans (congrArg Except.ok ?_)⟩
    exact (beq_false_of_ne (Nat.ne_zero_of_lt hlt)).symm
  | extended hlen _ hr =>
    rw [hr] at h
    rw [hr, hr, readHeaderSize_eq hlen, readHeaderSize_eq hlen]
    -- only the last case returns, and there the three slice at one place
    rcases decodeExtendedMVCCValue_cases c hlen with he | ⟨-, he⟩ | ⟨⟨-, hn⟩, he | ⟨hd, he⟩⟩
    · cases he.symm.trans h
    · cases he.symm.trans h
    · cases he.symm.trans h
    · cases he.symm.trans h
      rw [if_neg (Nat.not_lt.mpr hn), if_neg (Nat.not_lt.mpr hn), slice_tail hn]
      refine ⟨rfl, congrArg Except.ok ?_⟩
      unfold MVCCValue.isTombstone
      rw [length_drop, Bool.eq_iff_iff, beq_iff_eq, beq_iff_eq]
      omega

/-! ## What is encoded is decoded -/

theorem decode_simple_iff {r : Value} : decodeMVCCValue c r.rawBytes = .ok ⟨c.empty, r⟩ ↔
    r.timestamp = {} ∧ (r.rawBytes = [] ∨ tagPos < r.rawBytes.length ∧
      r.rawBytes[tagPos]? ≠ some extendedEncodingSentinel) := by
  obtain ⟨bs, ts⟩ := r
  dsimp only
  rw [decodeMVCCValue_eq]
  cases form bs with
  | tombstone h hr =>
    rw [hr, eq_nil_of_length_eq_zero h]
    simp [eq_comm]
  | short h hle hr =>
    rw [hr]
    refine ⟨nofun, ?_⟩
    rintro ⟨-, rfl | ⟨hlt, -⟩⟩
    · exact absurd rfl h
    · omega
  | simple hlt hs hr =>
    rw [hr]
    constructor
    · intro h
      exact ⟨congrArg (·.value.timestamp) (Except.ok.inj h).symm, .inr ⟨hlt, hs⟩⟩
    · rintro ⟨rfl, -⟩
      rfl
  | extended hlen hs hr =>
    rw [hr]
    constructor
    · -- what is read behind a header is shorter than the whole
      intro he
      rcases decodeExtendedMVCCValue_cases c hlen with h | ⟨-, h⟩ | ⟨⟨hlow, -⟩, h | ⟨hd, h⟩⟩
      · cases h.symm.trans he
      · cases h.symm.trans he
      · cases h.symm.trans he
      · have hraw := congrArg length
          (congrArg (fun v : MVCCValue H => v.value.rawBytes) (Except.ok.inj (h.symm.trans he)))
        have hpos : 0 < extendedPreludeSize := by decide
        dsimp only at hraw
        rw [length_drop] at hraw
        omega
    · rintro ⟨-, rfl | ⟨-, hne⟩⟩
      · cases hs
      · exact absurd hs hne

/-- The extended form. -/
def extendedForm (header bs : List UInt8) : List UInt8 :=
  bigEndian extendedLenSize header.length ++ extendedEncodingSentinel :: (header ++ bs)

section

variable (header bs : List UInt8)

theorem length_extendedForm : (extendedForm header bs).length =
    extendedPreludeSize + header.length + bs.length := by
  unfold extendedForm
  rw [length_append, length_bigEndian, length_cons, length_append]
  show 4 + (header.length + bs.length + 1) = 5 + header.length + _
  omega

theorem tagPos_lt_extendedForm : tagPos < (extendedForm header bs).length := by
  rw [length_extendedForm]
  show 4 < 5 + header.length + bs.length
  omega

theorem tag_extendedForm :
    (extendedForm header bs)[tagPos]? = some extendedEncodingSentinel := by
  have h4 := length_bigEndian extendedLenSize header.length
  unfold extendedForm
  rw [tagPos, getElem?_append_right h4.le, h4]
  rfl

end

theorem decode_extendedForm {hd : H} {header bs : List UInt8}
    (hlen : header.length < 2 ^ 32 - extendedPreludeSize) (hu : c.unmarshal header = some hd) :
    decodeExtendedMVCCValue c (extendedForm header bs) = .ok ⟨hd, { rawBytes := bs }⟩ := by
  have hbuf := length_extendedForm header bs
  have htag := tagPos_lt_extendedForm header bs
  have hfront : (bigEndian extendedLenSize header.length ++ [extendedEncodingSentinel]).length =
      extendedPreludeSize := by
    rw [length_append, length_bigEndian]
    rfl
  have hback : (bigEndian extendedLenSize header.length ++ [extendedEncodingSentinel] ++
      header).length = extendedPreludeSize + header.length := by
    rw [length_append, hfront]
  have hsplit : extendedForm header bs =
      bigEndian extendedLenSize header.length ++ [extendedEncodingSentinel] ++ header ++ bs := by
    simp [extendedForm]
  have hhl : headerLen (extendedForm header bs) = header.length := by
    have h4 : (bigEndian extendedLenSize header.length).length = 4 := length_bigEndian _ _
    unfold headerLen extendedForm
    rw [take_left' h4]
    exact uint_bigEndian (hlen.trans (by decide))
  have hend : headerEnd (extendedForm header bs) = extendedPreludeSize + header.length := by
    rw [headerEnd_eq (hhl ▸ hlen), hhl]
  rw [decodeExtendedMVCCValue_eq htag (by omega) (by omega), hend, hsplit, take_left' hback,
    drop_left' hback, drop_left' hfront, hu]

theorem decode_extended_iff {hd : H} {header : List UInt8} {r : Value}
    (hu : c.unmarshal header = some hd) :
    decodeMVCCValue c (extendedForm header r.rawBytes) = .ok ⟨hd, r⟩ ↔
      r.timestamp = {} ∧ header.length < 2 ^ 32 - extendedPreludeSize := by
  obtain ⟨bs, ts⟩ := r
  have hbuf := length_extendedForm header bs
  have htag := tagPos_lt_extendedForm header bs
  dsimp only
  rw [decodeMVCCValue_eq, readForm_extended htag (tag_extendedForm _ _)]
  constructor
  · -- the header is taken to end where the value starts, and that is a sum in 32 bits
    intro he
    have hlt : headerEnd (extendedForm header bs) < 2 ^ 32 := Nat.mod_lt _ (by decide)
    rcases decodeExtendedMVCCValue_cases c htag with h | ⟨-, h⟩ | ⟨⟨hlow, hn⟩, h | ⟨hd, h⟩⟩
    · cases h.symm.trans he
    · cases h.symm.trans he
    · cases h.symm.trans he
    · have hv := congrArg MVCCValue.value (Except.ok.inj (h.symm.trans he))
      have hraw := congrArg length (congrArg Value.rawBytes hv)
      dsimp only at hraw
      rw [length_drop] at hraw
      exact ⟨(congrArg Value.timestamp hv).symm, by omega⟩
  · rintro ⟨rfl, hlt⟩
    exact decode_extendedForm hlt hu

/-- The values that are read back as they were written. The timestamp of a value is not encoded;
the simple form needs a tag that is not the sentinel, the extended one a header below the length
that wraps. -/
def MVCCValue.Readable [DecidableEq H] (c : HeaderCodec H) (disableSimpleValueEncoding : Bool)
    (v : MVCCValue H) : Prop :=
  v.value.timestamp = {} ∧
    if v.mvccValueHeader = c.empty ∧ !disableSimpleValueEncoding then
      v.value.rawBytes = [] ∨ tagPos < v.value.rawBytes.length ∧
        v.value.rawBytes[tagPos]? ≠ some extendedEncodingSentinel
    else c.size v.mvccValueHeader < 2 ^ 32 - extendedPreludeSize

theorem decode_encode [DecidableEq H] {disable : Bool} (hc : c.RoundTrips) :
    ∃ buf, encodeMVCCValue c disable v = .ok buf ∧
      buf.length = encodedMVCCValueSize c disable v ∧
      (decodeMVCCValue c buf = .ok v ↔ v.Readable c disable) := by
  unfold encodeMVCCValue encodedMVCCValueSize MVCCValue.Readable
  split_ifs with hs
  · refine ⟨v.value.rawBytes, rfl, rfl, ?_⟩
    rw [← decode_simple_iff, ← hs.1]
  · obtain ⟨header, hm, hlen, hu⟩ := hc v.mvccValueHeader
    rw [hm, ← hlen]
    exact ⟨_, rfl, length_extendedForm _ _, decode_extended_iff hu⟩

/-- `DecodeMVCCValue` panics for the lengths that wrap and for no other bytes, the two other
decoders for none, and they agree with it; every value is encoded, in as many bytes as are allotted
for it, and decoded as it was iff it is `Readable`. -/
theorem mvccValue_decoding [DecidableEq H] (c : HeaderCodec H) (hc : c.RoundTrips) :
    (∀ buf, decodeMVCCValue c buf ≠ .error .outOfRange ↔ ¬ Wraps buf) ∧
    (∀ buf, decodeValueFromMVCCValue buf ≠ .error .outOfRange) ∧
    (∀ buf, encodedMVCCValueIsTombstone buf ≠ .error .outOfRange) ∧
    (∀ buf v, decodeMVCCValue c buf = .ok v →
      decodeValueFromMVCCValue buf = .ok v.value ∧
        encodedMVCCValueIsTombstone buf = .ok v.isTombstone) ∧
    (∀ disableSimpleValueEncoding v, ∃ buf,
      encodeMVCCValue c disableSimpleValueEncoding v = .ok buf ∧
        buf.length = encodedMVCCValueSize c disableSimpleValueEncoding v ∧
        (decodeMVCCValue c buf = .ok v ↔ v.Readable c disableSimpleValueEncoding)) := by
  refine ⟨?_, ?_, ?_, ?_, ?_⟩
  · intro buf
    exact decodeMVCCValue_eq_outOfRange_iff.not
  · intro buf
    refine readForm_ne_outOfRange fun n hn => ?_
    rw [slice_tail hn]
    nofun
  · intro buf
    exact readForm_ne_outOfRange fun n hn => nofun
  · intro buf v h
    exact decoders_agree h
  · intro disable v
    exact decode_encode hc

/-- The codec of a header in which only `omit_in_rangefeeds` may be set; the local timestamp,
here empty, is always written. -/
def omitInRangefeedsCodec : HeaderCodec Bool where
  empty := false
  size flag := if flag then 4 else 2
  marshalToSizedBuffer flag := some (if flag then [10, 0, 24, 1] else [10, 0])
  unmarshal bs :=
    if bs = [10, 0] then some false else if bs = [10, 0, 24, 1] then some true else none

/-- A tombstone that rangefeeds omit. -/
theorem mvccValue_decoding_tombstone :
    encodeMVCCValue omitInRangefeedsCodec false ⟨true, {}⟩ =
      .ok [0, 0, 0, 4, 101, 10, 0, 24, 1] ∧
    decodeMVCCValue omitInRangefeedsCodec [0, 0, 0, 4, 101, 10, 0, 24, 1] = .ok ⟨true, {}⟩ ∧
    encodedMVCCValueIsTombstone [0, 0, 0, 4, 101, 10, 0, 24, 1] = .ok true := by
  have hc : omitInRangefeedsCodec.RoundTrips := by
    intro h
    cases h with
    | false => exact ⟨[10, 0], rfl, rfl, rfl⟩
    | true => exact ⟨[10, 0, 24, 1], rfl, rfl, rfl⟩
  obtain ⟨-, -, -, hagree, hround⟩ := mvccValue_decoding omitInRangefeedsCodec hc
  obtain ⟨buf, henc, -, hdec⟩ := hround false ⟨true, {}⟩
  have hbuf : buf = [0, 0, 0, 4, 101, 10, 0, 24, 1] := by
    cases henc
    decide
  subst hbuf
  have hread := hdec.mpr ⟨rfl, by decide⟩
  exact ⟨henc, hread, (hagree _ _ hread).2⟩

/-- A header of the length `2 ^ 32 - 5` ends before it starts. A value of one byte has no tag, one
whose tag is the sentinel is taken for a header, and a timestamp is lost. -/
theorem decodeMVCCValue_wraps :
    decodeMVCCValue omitInRangefeedsCodec [255, 255, 255, 251, 101] = .error .outOfRange ∧
    ∀ v ∈ ([⟨false, ⟨[1], {}⟩⟩, ⟨false, ⟨[0, 0, 0, 0, 101], {}⟩⟩, ⟨true, ⟨[], ⟨1, 0⟩⟩⟩] :
        List (MVCCValue Bool)),
      (encodeMVCCValue omitInRangefeedsCodec false v).bind (decodeMVCCValue omitInRangefeedsCodec) ≠
        .ok v := by
  decide

end Cockroach.Storage
