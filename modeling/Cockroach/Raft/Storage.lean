import Cockroach.Raft.Unstable

/-!
# Stable storage (`storage.go`)

`MemoryStorage`, the implementation of the `Storage` interface in the package.
Its first slot `ents[0]` is the dummy entry that remembers the last compacted
position; it is the field `base` here, and `ents` are the slots after it.
-/

namespace Cockroach.Raft

open List

/-- What generated protobuf code computes: the encoded size of an entry, and the
configuration changes an entry of a configuration change type carries (`none`
when its data does not unmarshal). -/
class Codec where
  entrySize : Entry → Nat
  confChanges : EntryType → Bytes → Option (List ConfChangeSingle)

/-- `sovRaft`: the length of a varint. -/
def sovRaft (x : Nat) : Nat := Nat.log2 x / 7 + 1

/-- The generated code, for runs on concrete logs: the size of any entry, and of the changes
those that the runs propose, to leave a joint configuration and to add node 2. -/
@[reducible] def wireCodec : Codec where
  entrySize e := 4 + sovRaft e.term + sovRaft e.index +
    if e.data = [] then 0 else 1 + sovRaft e.data.length + e.data.length
  confChanges
    | .confChangeV2, [] => some []
    | .confChangeV2, [8, 0, 18, 4, 8, 0, 16, 2] => some [{ type := .addNode, nodeID := 2 }]
    | _, _ => none

section Sizes

variable [Codec]

/-- `entsSize`. -/
def entsSize (ents : List Entry) : Nat := (ents.map Codec.entrySize).sum

/-- The loop of `limitSize` after the first entry, with the size so far. -/
def limitLoop (maxSize : Nat) : Nat → List Entry → List Entry
  | _, [] => []
  | size, e :: es =>
    let size := size + Codec.entrySize e
    if size > maxSize then [] else e :: limitLoop maxSize size es

/-- `limitSize`. -/
def limitSize (maxSize : Nat) : List Entry → List Entry
  | [] => []
  | e :: es => e :: limitLoop maxSize (Codec.entrySize e) es

theorem entsSize_append (xs ys : List Entry) : entsSize (xs ++ ys) = entsSize xs + entsSize ys := by
  simp [entsSize]

theorem limitLoop_eq_take (maxSize : Nat) : ∀ (es : List Entry) (size : Nat),
    ∃ n, limitLoop maxSize size es = es.take n ∧
      (size + entsSize es ≤ maxSize → es.length ≤ n)
  | [], _ => ⟨0, rfl, fun _ => le_rfl⟩
  | e :: es, size => by
    obtain ⟨n, hn, hfull⟩ := limitLoop_eq_take maxSize es (size + Codec.entrySize e)
    by_cases h : size + Codec.entrySize e > maxSize
    · refine ⟨0, by simp [limitLoop, h], fun hle => ?_⟩
      simp only [entsSize, map_cons, sum_cons] at hle
      omega
    · refine ⟨n + 1, by simp [limitLoop, h, hn], fun hle => ?_⟩
      simp only [entsSize, map_cons, sum_cons, length_cons] at *
      exact Nat.succ_le_succ (hfull (by omega))

/-- `limitSize` returns a prefix: at least one entry if there is any, and all of
them when they fit. -/
theorem limitSize_eq_take (maxSize : Nat) (es : List Entry) :
    ∃ n, limitSize maxSize es = es.take n ∧ (es ≠ [] → 0 < n) ∧
      (entsSize es ≤ maxSize → es.length ≤ n) := by
  cases es with
  | nil => exact ⟨0, rfl, fun h => absurd rfl h, fun _ => le_rfl⟩
  | cons e es =>
    obtain ⟨n, hn, hfull⟩ := limitLoop_eq_take maxSize es (Codec.entrySize e)
    refine ⟨n + 1, by simp [limitSize, hn], fun _ => Nat.succ_pos n, fun hle => ?_⟩
    simp only [entsSize, map_cons, sum_cons, length_cons] at *
    exact Nat.succ_le_succ (hfull hle)

end Sizes

/-- `payloadSize`. -/
def payloadSize (e : Entry) : Nat := e.data.length

/-- `payloadsSize`. -/
def payloadsSize (ents : List Entry) : Nat := (ents.map payloadSize).sum

/-- The errors of the `Storage` interface. -/
inductive StorageErr
  | compacted
  | unavailable
  | snapOutOfDate
  | snapshotTemporarilyUnavailable
  deriving DecidableEq, Repr

/-- `MemoryStorage`. -/
structure MemoryStorage where
  hardState : HardState := {}
  snapshot : Snapshot := {}
  base : EntryID := {}
  ents : List Entry := []
  deriving DecidableEq, Repr, Inhabited

namespace MemoryStorage

variable (ms : MemoryStorage)

/-- `MemoryStorage.InitialState`. -/
def initialState : HardState × ConfState :=
  (ms.hardState, ms.snapshot.metadata.confState)

/-- `MemoryStorage.SetHardState`. -/
def setHardState (st : HardState) : MemoryStorage :=
  { ms with hardState := st }

/-- `MemoryStorage.LastIndex`. -/
def lastIndex : Nat := ms.base.index + ms.ents.length

/-- `MemoryStorage.FirstIndex`. -/
def firstIndex : Nat := ms.base.index + 1

/-- `MemoryStorage.Term`. -/
def term (i : Nat) : Except StorageErr Nat :=
  if i < ms.base.index then .error .compacted
  else if i = ms.base.index then .ok ms.base.term
  else
    match ms.ents[i - ms.base.index - 1]? with
    | some e => .ok e.term
    | none => .error .unavailable

/-- `MemoryStorage.Entries`. The outer layer is a panic, the inner one the
returned error. -/
def entries [Codec] (lo hi maxSize : Nat) : Except Panic (Except StorageErr (List Entry)) := do
  if lo ≤ ms.base.index then return .error .compacted
  assertTrue (hi ≤ ms.lastIndex + 1) .storageOutOfBounds
  if ms.ents = [] then return .error .unavailable
  assertTrue (lo ≤ hi) .indexOutOfRange
  return .ok (limitSize maxSize ((ms.ents.drop (lo - ms.base.index - 1)).take (hi - lo)))

/-- `MemoryStorage.ApplySnapshot`. -/
def applySnapshot (snap : Snapshot) : Except StorageErr MemoryStorage :=
  if ms.snapshot.metadata.index ≥ snap.metadata.index then .error .snapOutOfDate
  else .ok { ms with
    snapshot := snap
    base := ⟨snap.metadata.term, snap.metadata.index⟩
    ents := [] }

/-- `MemoryStorage.Append`. -/
def append (entries : List Entry) : Except Panic MemoryStorage := do
  match entries with
  | [] => return ms
  | e :: _ =>
    let first := ms.firstIndex
    let last := e.index + entries.length - 1
    -- Shortcut if there is no new entry.
    if last < first then return ms
    -- Truncate compacted entries.
    let start := max first e.index
    let entries := entries.drop (start - e.index)
    let offset := start - ms.base.index
    assertTrue (offset ≤ ms.ents.length + 1) .storageOutOfBounds
    return { ms with ents := ms.ents.take (offset - 1) ++ entries }

end MemoryStorage

end Cockroach.Raft
