import Cockroach.Gc.Iterator

/-!
# Batching what is garbage (`gcKeyBatcher` of `gc.go`)

The batcher collects garbage into batches of point requests and, when enough versions in a
row are garbage, replaces them by one clear-range request. What a `GCer` answers is a
parameter: it may fail any request, and the context's error ends the collection.

Keys are values here: the allocators that the batcher shares between slices are left out.
-/

namespace Cockroach.Gc

open Lib Hlc Storage

/-- `gcBatchCounters`. -/
structure GcBatchCounters where
  keyBytes : Int := 0
  valBytes : Int := 0
  keysAffected : Int := 0
  memUsed : Int := 0
  versionsAffected : Int := 0
  deriving DecidableEq, Repr, Inhabited

/-- The fields of `Info` that the batcher updates. -/
structure Info where
  affectedVersionsKeyBytes : Int := 0
  affectedVersionsValBytes : Int := 0
  numKeysAffected : Int := 0
  clearRangeSpanOperations : Nat := 0
  clearRangeSpanFailures : Nat := 0
  deriving DecidableEq, Repr, Inhabited

namespace GcBatchCounters

instance : Add GcBatchCounters where
  add a b := ⟨a.keyBytes + b.keyBytes, a.valBytes + b.valBytes, a.keysAffected + b.keysAffected,
    a.memUsed + b.memUsed, a.versionsAffected + b.versionsAffected⟩

instance : Sub GcBatchCounters where
  sub a b := ⟨a.keyBytes - b.keyBytes, a.valBytes - b.valBytes, a.keysAffected - b.keysAffected,
    a.memUsed - b.memUsed, a.versionsAffected - b.versionsAffected⟩

/-- `gcBatchCounters.updateGcInfo`. -/
def updateGcInfo (c : GcBatchCounters) (info : Info) : Info :=
  { info with
    affectedVersionsKeyBytes := info.affectedVersionsKeyBytes + c.keyBytes
    affectedVersionsValBytes := info.affectedVersionsValBytes + c.valBytes
    numKeysAffected := info.numKeysAffected + c.keysAffected }

end GcBatchCounters

/-- `kvpb.GCRequest_GCKey`. -/
structure GCKey where
  key : Key
  timestamp : Timestamp
  deriving DecidableEq, Repr, Inhabited

/-- What is passed to `GCer.GC`: keys, or a `kvpb.GCRequest_GCClearRange`. -/
inductive GCRequest where
  | points (keys : List GCKey)
  | clearRange (startKey : Key) (startKeyTimestamp : Timestamp) (endKey : Key)
  deriving DecidableEq, Repr

/-- The versions that a request removes: those of a key at or below its timestamp, and
all between the start key at its timestamp and the end key. -/
def GCRequest.Covers : GCRequest → MVCCKey → Prop
  | .points keys, k => k.isValue = true ∧ ∃ p ∈ keys, p.key = k.key ∧ k.timestamp ≤ p.timestamp
  | .clearRange startKey startKeyTimestamp endKey, k =>
    ⟨startKey, startKeyTimestamp⟩ ≤ k ∧ k.key < endKey

instance : DecidableRel GCRequest.Covers
  | .points _, _ => inferInstanceAs (Decidable (_ ∧ _))
  | .clearRange .., _ => inferInstanceAs (Decidable (_ ∧ _))

/-- What `GCer.GC` answers. -/
inductive GCResult where
  | ok
  | failed
  /-- The error of the context. -/
  | canceled
  deriving DecidableEq, Repr

/-- A `PureGCer`: its answer to the last of the requests that were passed to it. -/
abbrev GCer := List GCRequest → GCResult

/-- `gcKeyBatcherThresholds`. -/
structure GcKeyBatcherThresholds where
  batchGCKeysBytesThreshold : Int
  clearRangeMinKeys : Int
  clearRangeEnabled : Bool
  maxPendingKeysSize : Int
  deriving DecidableEq, Repr

/-- `pointsBatch`. -/
structure PointsBatch where
  counters : GcBatchCounters := {}
  batchGCKeys : List GCKey := []
  deriving DecidableEq, Repr, Inhabited

/-- The slice of points batches, which is never empty: the last batch and those before. -/
structure PointsBatches where
  older : List PointsBatch := []
  last : PointsBatch := {}
  deriving DecidableEq, Repr, Inhabited

/-- `pointsBatches[0]`. -/
def PointsBatches.first (bs : PointsBatches) : PointsBatch := bs.older.headD bs.last

/-- `gcKeyBatcher`, with the requests that it has passed on; a key that is nil is empty. -/
structure GcKeyBatcher where
  prevWasNewest : Bool := true
  pointsBatches : PointsBatches := {}
  totalMemUsed : Int := 0
  clearRangeEndKey : Key
  clearRangeStartKey : MVCCKey := ⟨[], {}⟩
  clearRangeCounters : GcBatchCounters := {}
  partialPointBatchCounters : GcBatchCounters := {}
  info : Info := {}
  requests : List GCRequest := []
  deriving DecidableEq, Repr

/-- A collection that stopped early, and the requests it had passed on. -/
structure Stopped where
  why : Stop
  requests : List GCRequest
  deriving DecidableEq, Repr

/-- `hlcTimestampSize`. -/
def hlcTimestampSize : Nat := 16

namespace GcKeyBatcher

variable (th : GcKeyBatcherThresholds) (gcer : GCer) (b : GcKeyBatcher)

/-- `gcKeyBatcher.flushPointsBatch`; the caller drops the batch. -/
def flushPointsBatch (batch : PointsBatch) : Except Stopped GcKeyBatcher :=
  let requests := b.requests ++ [.points batch.batchGCKeys]
  if gcer requests = .canceled then .error ⟨.canceled, requests⟩
  else .ok { b with
    requests
    info := batch.counters.updateGcInfo b.info
    totalMemUsed := b.totalMemUsed - batch.counters.memUsed }

/-- `gcKeyBatcher.flushOldestPointBatches`, for a count that leaves the last batch. -/
def flushOldestPointBatches (count : Nat) : Except Stopped GcKeyBatcher := do
  let b ← (b.pointsBatches.older.take count).foldlM (flushPointsBatch gcer) b
  return { b with
    pointsBatches := { b.pointsBatches with older := b.pointsBatches.older.drop count } }

/-- The clear range of `maybeFlushPendingBatches`. -/
def flushClearRange : Except Stopped GcKeyBatcher :=
  let endRange :=
    if b.clearRangeCounters.keysAffected = 1 then Key.next b.clearRangeStartKey.key
    else b.clearRangeEndKey
  let requests := b.requests ++
    [.clearRange b.clearRangeStartKey.key b.clearRangeStartKey.timestamp endRange]
  if gcer requests = .canceled then .error ⟨.canceled, requests⟩
  else
    let info := b.clearRangeCounters.updateGcInfo b.info
    .ok { b with
      requests
      info := { info with
        clearRangeSpanOperations := info.clearRangeSpanOperations + 1
        clearRangeSpanFailures :=
          info.clearRangeSpanFailures + if gcer requests = .failed then 1 else 0 }
      totalMemUsed := 0 }

/-- The part of the first batch that the clear range does not cover. -/
def flushUncovered : Except Stopped GcKeyBatcher :=
  let keys := b.pointsBatches.first.batchGCKeys
  let lastIdx := searchList keys fun p => decide (p.key < b.clearRangeEndKey)
  if lastIdx = 0 then
    match keys with
    | [] => .error ⟨.panic "index out of range", b.requests⟩
    | p :: _ => .ok { b with clearRangeEndKey := Key.next p.key }
  else b.flushPointsBatch gcer ⟨b.partialPointBatchCounters, keys.take lastIdx⟩

/-- The requests of `maybeFlushPendingBatches`: a clear range if there is enough for one,
else all points batches but the last. -/
def flushPending : Except Stopped GcKeyBatcher :=
  if th.clearRangeEnabled ∧ th.clearRangeMinKeys ≤ b.clearRangeCounters.versionsAffected then do
    let b ← b.flushUncovered gcer
    flushClearRange gcer { b with pointsBatches := {} }
  else b.flushOldestPointBatches gcer b.pointsBatches.older.length

/-- `gcKeyBatcher.maybeFlushPendingBatches`. -/
def maybeFlushPendingBatches : Except Stopped GcKeyBatcher := do
  let b ← b.flushPending th gcer
  return { b with clearRangeCounters := {}, clearRangeEndKey := [] }

/-- `gcKeyBatcher.foundNonGCableData`. -/
def foundNonGCableData (cur : MvccKeyValue) (isNewestPoint : Bool) : Except Stopped GcKeyBatcher :=
  let b := { b with prevWasNewest := isNewestPoint }
  if !th.clearRangeEnabled then .ok b
  else do
    let b ← b.maybeFlushPendingBatches th gcer
    return if isNewestPoint then { b with clearRangeEndKey := cur.key.key } else b

/-- A batch that is full makes room for another one. -/
def makeRoom : Except Stopped GcKeyBatcher :=
  let bs := b.pointsBatches
  if th.batchGCKeysBytesThreshold ≤ bs.last.counters.keyBytes then
    if !th.clearRangeEnabled then do
      let b ← b.flushPointsBatch gcer bs.last
      return { b with pointsBatches := { bs with last := {} } }
    else .ok { b with pointsBatches := ⟨bs.older ++ [bs.last], {}⟩ }
  else .ok b

/-- A version is added to the last batch: as a new key, or by moving the timestamp of the
last key. -/
def addPoint (cur : MvccKeyValue) : GcKeyBatcher :=
  let batch := b.pointsBatches.last
  let new := b.prevWasNewest || batch.batchGCKeys.isEmpty
  let keyMemUsed : Int := if new then cur.key.key.length + hlcTimestampSize else 0
  let keys :=
    if new then batch.batchGCKeys ++ [⟨cur.key.key, cur.key.timestamp⟩]
    else batch.batchGCKeys.modifyLast fun p => { p with timestamp := cur.key.timestamp }
  let counters : GcBatchCounters := batch.counters +
    ⟨cur.key.encodedSize, cur.mvccValueLen, if b.prevWasNewest then 1 else 0, keyMemUsed, 1⟩
  { b with
    pointsBatches := { b.pointsBatches with last := ⟨counters, keys⟩ }
    totalMemUsed := b.totalMemUsed + keyMemUsed }

/-- The oldest batch is flushed when too much memory is used. A clear range that covers
part of it is cut to what follows its last key. -/
def evictOldest : Except Stopped GcKeyBatcher :=
  if b.pointsBatches.older ≠ [] ∧ th.maxPendingKeysSize ≤ b.totalMemUsed then
    match b.pointsBatches.first.batchGCKeys.getLast? with
    | none => .error ⟨.panic "index out of range", b.requests⟩
    | some p =>
      let b :=
        if p.key < b.clearRangeEndKey then
          { b with
            clearRangeCounters := b.clearRangeCounters +
              (b.partialPointBatchCounters - b.pointsBatches.first.counters)
            clearRangeEndKey := Key.next p.key }
        else b
      flushOldestPointBatches gcer { b with partialPointBatchCounters := {} } 1
  else .ok b

/-- The clear range is extended by a version. -/
def trackClearRange (cur : MvccKeyValue) : GcKeyBatcher :=
  { b with
    clearRangeStartKey :=
      ⟨if b.prevWasNewest then cur.key.key else b.clearRangeStartKey.key, cur.key.timestamp⟩
    clearRangeCounters := b.clearRangeCounters +
      ⟨cur.key.encodedSize, cur.mvccValueLen, if b.prevWasNewest then 1 else 0, 0, 1⟩ }

/-- The counters of the last batch are kept when a clear range may start. -/
def savePartial : GcKeyBatcher :=
  if th.clearRangeEnabled ∧ b.prevWasNewest ∧ b.clearRangeCounters.versionsAffected = 0 then
    { b with partialPointBatchCounters := b.pointsBatches.last.counters }
  else b

/-- A version is added to the points as long as a clear range is not certain. -/
def collectPoint (cur : MvccKeyValue) : Except Stopped GcKeyBatcher :=
  if !th.clearRangeEnabled ∨ b.clearRangeCounters.versionsAffected < th.clearRangeMinKeys then do
    let b ← b.makeRoom th gcer
    (b.addPoint cur).evictOldest th gcer
  else .ok b

/-- `gcKeyBatcher.foundGarbage`. -/
def foundGarbage (cur : MvccKeyValue) (isNewestPoint : Bool) : Except Stopped GcKeyBatcher := do
  let b ← (b.savePartial th).collectPoint th gcer cur
  let b := if th.clearRangeEnabled then b.trackClearRange cur else b
  return { b with prevWasNewest := isNewestPoint }

/-- `gcKeyBatcher.flushLastBatch`. -/
def flushLastBatch : Except Stopped GcKeyBatcher :=
  if b.pointsBatches.first.batchGCKeys = [] then .ok b
  else
    let bs := b.pointsBatches
    maybeFlushPendingBatches th gcer { b with pointsBatches := ⟨bs.older ++ [bs.last], {}⟩ }

/-- The call that the loop makes. -/
def found (c : Call) : Except Stopped GcKeyBatcher :=
  if c.garbage then b.foundGarbage th gcer c.cur c.isNewestPoint
  else b.foundNonGCableData th gcer c.cur c.isNewestPoint

end GcKeyBatcher

/-- The batcher over a sequence of calls, up to the end of the span. -/
def collect (th : GcKeyBatcherThresholds) (gcer : GCer) (endKey : Key) (cs : List Call) :
    Except Stopped GcKeyBatcher := do
  let b ← cs.foldlM (GcKeyBatcher.found th gcer) { clearRangeEndKey := endKey }
  b.flushLastBatch th gcer

/-- The requests passed on, whether the collection stopped early or not. -/
def requests : Except Stopped GcKeyBatcher → List GCRequest
  | .ok b => b.requests
  | .error e => e.requests

/-- `processReplicatedKeyRange` over one span, that ends at `endKey`. -/
def processReplicatedKeyRange (th : GcKeyBatcherThresholds) (gcer : GCer) (endKey : Key)
    (threshold : Timestamp) (ps : List Position) : Except Stopped GcKeyBatcher := do
  let b ← loop (GcKeyBatcher.found th gcer) (fun b e => ⟨e, b.requests⟩) (ps.length + 1)
    { it := ps, threshold } { clearRangeEndKey := endKey }
  b.flushLastBatch th gcer

end Cockroach.Gc
