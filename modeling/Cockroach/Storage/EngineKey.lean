import Cockroach.Storage.MvccKey

/-!
# Encoded keys (`mvcc_key.go`, `engine_key.go`, `enginepb/decode.go`)

An engine key is a key with a version: a timestamp, or what tells a lock. Encoded, the key
is followed by a zero byte and, if there is a version, by the version and a last byte that
counts the bytes after the zero.

Timestamps are not negative here, so that a wall time is less than `2 ^ 63` and a logical
time less than `2 ^ 31` (`MVCCKey.NonNegative`).
-/

namespace Cockroach.Storage

open Lib Hlc List

/-! ## MVCC keys -/

/-- `encodeMVCCTimestampToBuf`. -/
def encodeMVCCTimestamp (ts : Timestamp) : List UInt8 :=
  bigEndian 8 ts.wallTime ++ if ts.logical ≠ 0 then bigEndian 4 ts.logical else []

/-- `EncodeMVCCKey`. -/
def encodeMVCCKey (k : MVCCKey) : List UInt8 :=
  k.key ++ [0] ++
    if k.timestamp.isEmpty then []
    else
      let ts := encodeMVCCTimestamp k.timestamp
      ts ++ [UInt8.ofNat (ts.length + 1)]

/-- Why bytes are not an encoded key. -/
inductive DecodeError where
  /-- invalid encoded mvcc key -/
  | invalidKey
  /-- bad timestamp -/
  | badTimestamp
  deriving DecidableEq, Repr

/-- The last byte, which counts the bytes of the suffix. -/
def suffixLen (b : List UInt8) : Nat := (b.getLast?.getD 0).toNat

/-- Where the key ends, if the bytes are as many as the last one says. -/
def keyPartEnd (b : List UInt8) : Option Nat :=
  if b = [] then none
  else if b.length < 1 + suffixLen b then none
  else some (b.length - 1 - suffixLen b)

/-- The version after a key that ends at `n`. -/
def versionPart (b : List UInt8) (n : Nat) : List UInt8 :=
  if suffixLen b > 0 then (b.drop (n + 1)).dropLast else []

/-- `SplitMVCCKey`. -/
def splitMVCCKey (b : List UInt8) : Option (List UInt8 × List UInt8) :=
  (keyPartEnd b).map fun n => (b.take n, versionPart b n)

/-- `decodeMVCCTimestamp`, without the length byte. -/
def decodeMVCCTimestamp (encodedTS : List UInt8) : Option Timestamp :=
  match encodedTS.length with
  | 0 => some {}
  | 8 => some { wallTime := uint (encodedTS.take 8) }
  | 12 | 13 =>
    some { wallTime := uint (encodedTS.take 8), logical := uint ((encodedTS.drop 8).take 4) }
  | _ => none

/-- `DecodeMVCCKey`. -/
def decodeMVCCKey (b : List UInt8) : Except DecodeError MVCCKey :=
  match splitMVCCKey b with
  | none => .error .invalidKey
  | some (key, encodedTS) =>
    match decodeMVCCTimestamp encodedTS with
    | none => .error .badTimestamp
    | some timestamp => .ok { key, timestamp }

/-! ## Engine keys -/

/-- `EngineKey`. -/
@[ext] structure EngineKey where
  key : Key
  version : List UInt8 := []
  deriving DecidableEq, Repr

namespace EngineKey

variable (k : EngineKey)

/-- The version with its length byte. -/
def suffix : List UInt8 :=
  if k.version = [] then [] else k.version ++ [UInt8.ofNat (k.version.length + 1)]

/-- `EngineKey.Encode`. -/
def encode : List UInt8 := k.key ++ [0] ++ k.suffix

/-- `EngineKey.ToMVCCKey`. -/
def toMVCCKey : Except DecodeError MVCCKey :=
  match decodeMVCCTimestamp k.version with
  | none => .error .badTimestamp
  | some timestamp => .ok { key := k.key, timestamp }

/-- The versions that there are: none, a wall time, a wall time with a logical time, also
with the synthetic byte, and the one of a lock. -/
def Valid : Prop := k.version.length ∈ [0, 8, 12, 13, 17]

end EngineKey

/-- `DecodeEngineKey`. -/
def decodeEngineKey (b : List UInt8) : Option EngineKey :=
  (keyPartEnd b).bind fun n =>
    if b[n]? ≠ some 0 then none else some ⟨b.take n, versionPart b n⟩

/-- `GetKeyPartFromEngineKey`. -/
def getKeyPartFromEngineKey (b : List UInt8) : Option (List UInt8) :=
  (keyPartEnd b).bind fun n => if b[n]? ≠ some 0 then none else some (b.take n)

/-- The timestamp of an MVCC key is not negative. -/
def MVCCKey.NonNegative (k : MVCCKey) : Prop :=
  k.timestamp.wallTime < 2 ^ 63 ∧ k.timestamp.logical < 2 ^ 31

/-! ## Parts of an encoding -/

section Parts

variable {k : EngineKey}

theorem EngineKey.Valid.length_le (h : k.Valid) : k.version.length ≤ 17 := by
  unfold EngineKey.Valid at h
  simp only [mem_cons, not_mem_nil, or_false] at h
  omega

theorem EngineKey.encode_ne_nil (k : EngineKey) : k.encode ≠ [] := by
  unfold encode
  simp

theorem EngineKey.length_encode (k : EngineKey) :
    k.encode.length = k.key.length + 1 + k.suffix.length := by
  unfold encode
  rw [length_append, length_append]
  rfl

theorem EngineKey.suffix_dropLast (hv : k.version ≠ []) : k.suffix.dropLast = k.version := by
  unfold suffix
  rw [if_neg hv, dropLast_concat]

theorem EngineKey.suffix_eq_nil : k.suffix = [] ↔ k.version = [] := by
  unfold suffix
  split_ifs with hv
  · simp [hv]
  · simp [hv]

theorem EngineKey.take_key_encode (k : EngineKey) : k.encode.take k.key.length = k.key := by
  unfold encode
  rw [append_assoc]
  exact take_left' rfl

theorem EngineKey.getElem?_encode (k : EngineKey) : k.encode[k.key.length]? = some 0 := by
  unfold encode
  rw [append_assoc, getElem?_append_right le_rfl, Nat.sub_self]
  rfl

variable (h : k.version.length < 255)
include h

/-- The length byte counts the suffix. -/
theorem EngineKey.suffixLen_encode : suffixLen k.encode = k.suffix.length := by
  unfold suffixLen encode suffix
  split_ifs with hv
  · simp
  · rw [← append_assoc, getLast?_concat]
    simp
    omega

theorem EngineKey.take_encode :
    k.encode.take (k.encode.length - suffixLen k.encode) = k.key ++ [0] := by
  rw [suffixLen_encode h, length_encode, Nat.add_sub_cancel]
  unfold encode
  exact take_left' (by simp)

theorem EngineKey.drop_encode :
    k.encode.drop (k.encode.length - suffixLen k.encode) = k.suffix := by
  rw [suffixLen_encode h, length_encode, Nat.add_sub_cancel]
  unfold encode
  exact drop_left' (by simp)

theorem EngineKey.keyPartEnd_encode : keyPartEnd k.encode = some k.key.length := by
  have hlen := k.length_encode
  unfold keyPartEnd
  rw [if_neg k.encode_ne_nil, suffixLen_encode h, if_neg (by omega)]
  congr 1
  omega

theorem EngineKey.versionPart_encode : versionPart k.encode k.key.length = k.version := by
  have hdrop : k.encode.drop (k.key.length + 1) = k.suffix := by
    unfold encode
    exact drop_left' (by simp)
  unfold versionPart
  rw [suffixLen_encode h, hdrop]
  by_cases hv : k.version = []
  · rw [suffix_eq_nil.mpr hv, if_neg (by simp), hv]
  · rw [if_pos (length_pos_iff.mpr fun hn => hv (suffix_eq_nil.mp hn)), suffix_dropLast hv]

/-- What was encoded is decoded. -/
theorem decodeEngineKey_encode : decodeEngineKey k.encode = some k := by
  unfold decodeEngineKey
  rw [EngineKey.keyPartEnd_encode h, Option.bind_some,
    if_neg (not_not.mpr k.getElem?_encode), k.take_key_encode, EngineKey.versionPart_encode h]

theorem getKeyPartFromEngineKey_encode : getKeyPartFromEngineKey k.encode = some k.key := by
  unfold getKeyPartFromEngineKey
  rw [EngineKey.keyPartEnd_encode h, Option.bind_some,
    if_neg (not_not.mpr k.getElem?_encode), k.take_key_encode]

end Parts

/-! ## MVCC keys as engine keys -/

section Mvcc

variable {k : MVCCKey}

/-- The engine key of an MVCC key. -/
def MVCCKey.toEngineKey (k : MVCCKey) : EngineKey :=
  ⟨k.key, if k.timestamp.isEmpty then [] else encodeMVCCTimestamp k.timestamp⟩

theorem length_encodeMVCCTimestamp (ts : Timestamp) :
    (encodeMVCCTimestamp ts).length = if ts.logical ≠ 0 then 12 else 8 := by
  unfold encodeMVCCTimestamp
  split_ifs <;> simp

theorem encodeMVCCTimestamp_ne_nil (ts : Timestamp) : encodeMVCCTimestamp ts ≠ [] := by
  refine ne_nil_of_length_pos ?_
  rw [length_encodeMVCCTimestamp]
  split_ifs <;> omega

theorem MVCCKey.toEngineKey_valid (k : MVCCKey) : k.toEngineKey.Valid := by
  unfold toEngineKey EngineKey.Valid
  dsimp only
  split_ifs with h
  · simp
  · rw [length_encodeMVCCTimestamp]
    split_ifs <;> simp

theorem MVCCKey.encode_toEngineKey (k : MVCCKey) : k.toEngineKey.encode = encodeMVCCKey k := by
  unfold toEngineKey EngineKey.encode EngineKey.suffix encodeMVCCKey
  dsimp only
  by_cases h : k.timestamp.isEmpty = true
  · rw [if_pos h, if_pos h, if_pos rfl]
  · rw [if_neg h, if_neg h, if_neg (encodeMVCCTimestamp_ne_nil _)]

/-- The timestamp of a version is read back. -/
theorem decodeMVCCTimestamp_encode {ts : Timestamp} (hw : ts.wallTime < 2 ^ 63)
    (hl : ts.logical < 2 ^ 31) : decodeMVCCTimestamp (encodeMVCCTimestamp ts) = some ts := by
  have hwall : uint ((encodeMVCCTimestamp ts).take 8) = ts.wallTime := by
    unfold encodeMVCCTimestamp
    rw [take_left' (length_bigEndian 8 _), uint_bigEndian (by omega)]
  unfold decodeMVCCTimestamp
  rw [length_encodeMVCCTimestamp, hwall]
  by_cases h : ts.logical = 0
  · rw [if_neg (not_not.mpr h)]
    show some (Timestamp.mk ts.wallTime 0) = some ts
    rw [← h]
  · rw [if_pos h]
    have hlog : uint (((encodeMVCCTimestamp ts).drop 8).take 4) = ts.logical := by
      unfold encodeMVCCTimestamp
      rw [drop_left' (length_bigEndian 8 _), if_pos h,
        take_of_length_le (by rw [length_bigEndian]), uint_bigEndian (by omega)]
    show some (Timestamp.mk ts.wallTime _) = some ts
    rw [hlog]

theorem MVCCKey.NonNegative.decode_version (h : k.NonNegative) :
    decodeMVCCTimestamp k.toEngineKey.version = some k.timestamp := by
  unfold toEngineKey
  dsimp only
  split_ifs with he
  · rw [Timestamp.isEmpty_iff] at he
    rw [he]
    rfl
  · exact decodeMVCCTimestamp_encode h.1 h.2

/-- `DecodeMVCCKey` inverts `EncodeMVCCKey`. -/
theorem MVCCKey.NonNegative.decodeMVCCKey_encode (h : k.NonNegative) :
    decodeMVCCKey (encodeMVCCKey k) = .ok k := by
  have hlt : k.toEngineKey.version.length < 255 := by
    have := k.toEngineKey_valid.length_le
    omega
  unfold decodeMVCCKey splitMVCCKey
  rw [← k.encode_toEngineKey, EngineKey.keyPartEnd_encode hlt, Option.map_some,
    k.toEngineKey.take_key_encode, EngineKey.versionPart_encode hlt]
  dsimp only
  rw [h.decode_version]
  rfl

theorem MVCCKey.NonNegative.toMVCCKey_toEngineKey (h : k.NonNegative) :
    k.toEngineKey.toMVCCKey = .ok k := by
  unfold EngineKey.toMVCCKey
  rw [h.decode_version]
  rfl

end Mvcc

end Cockroach.Storage
