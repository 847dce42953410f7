import Cockroach.KvCoord.SpanSet
import Cockroach.Kvpb.Batch

/-!
# The write pipeliner (`txn_interceptor_pipeliner.go`)

The pipeliner lets writes be acknowledged before they are replicated. It keeps those writes
as in flight until a `QueryIntent` has found them, and everything else that may be locked in
the lock footprint. A batch goes through it in two halves: `prepare` on the way down,
`updateLockTracking` with what came back.

The set of in-flight writes is a list without duplicates, in the order of the tree, with the
sum of the keys' lengths for its byte counter. A request slice is a value here, so that
there is no copy-on-write.
-/

namespace Cockroach.KvCoord

open Kvpb Roachpb Storage

/-! ## In-flight writes -/

/-- `inFlightWrite`. -/
structure InFlightWrite where
  write : SequencedWrite
  chainIndex : Nat := 0
  deriving DecidableEq, Repr, Inhabited

/-- `inFlightWrite.Less`, as an order. -/
def inFlightWriteLE (a b : InFlightWrite) : Prop :=
  a.write.key < b.write.key ∨ a.write.key = b.write.key ∧
    (a.write.sequence < b.write.sequence ∨ a.write.sequence = b.write.sequence ∧
      a.write.strength.toNat ≤ b.write.strength.toNat)

instance : DecidableRel inFlightWriteLE := fun _ _ => inferInstanceAs (Decidable (_ ∨ _))

/-- `inFlightWriteSet`. -/
abbrev InFlightWriteSet := List InFlightWrite

namespace InFlightWriteSet

/-- `inFlightWriteSet.remove`. -/
def remove (s : InFlightWriteSet) (w : SequencedWrite) : InFlightWriteSet :=
  s.filter fun x => x.write ≠ w

/-- `inFlightWriteSet.insert`. -/
def insert (s : InFlightWriteSet) (w : SequencedWrite) : InFlightWriteSet :=
  (remove s w).orderedInsert inFlightWriteLE ⟨w, 0⟩

/-- `inFlightWriteSet.byteSize`. -/
def byteSize (s : InFlightWriteSet) : Int := (s.map fun x => (x.write.key.length : Int)).sum

variable {s : InFlightWriteSet} {w : SequencedWrite} {x : InFlightWrite}

theorem mem_remove : x ∈ remove s w ↔ x ∈ s ∧ x.write ≠ w := by
  unfold remove
  rw [List.mem_filter, decide_eq_true_iff]

theorem mem_insert : x ∈ insert s w ↔ x = ⟨w, 0⟩ ∨ x ∈ s ∧ x.write ≠ w := by
  unfold insert
  rw [List.mem_orderedInsert, mem_remove]

end InFlightWriteSet

/-! ## The pipeliner -/

/-- The cluster settings that the interceptors read. -/
structure Settings where
  pipelinedWritesEnabled : Bool := true
  pipelinedRangedWritesEnabled : Bool := true
  pipelinedLockingReadsEnabled : Bool := true
  pipelinedWritesMaxBatchSize : Int := 128
  trackedWritesMaxSize : Int := 4194304
  rejectTxnOverTrackedWritesBudget : Bool := false
  parallelCommitsEnabled : Bool := true
  deriving DecidableEq, Repr, Inhabited

/-- `txnPipeliner`. -/
structure TxnPipeliner where
  disabled : Bool := false
  ifWrites : InFlightWriteSet := []
  ifWritesChainIndex : Nat := 0
  lockFootprint : CondensableSpanSet := {}
  deriving DecidableEq, Repr, Inhabited

/-- Why an interceptor does not send a batch on. -/
inductive SendError where
  /-- client must not pass intents, or in-flight writes, to EndTxn -/
  | assertionFailed
  | lockSpansOverBudget
  | possible1PCWithoutRequire1PC
  | txnDeadlineExceeded
  | unexpectedStatus
  deriving DecidableEq, Repr

/-- A savepoint (`txn_coord_sender_savepoints.go`). -/
structure Savepoint where
  active : Bool := false
  epoch : Nat := 0
  seqNum : Nat := 0
  deriving DecidableEq, Repr, Inhabited

/-- `savepoint.Initial`. -/
def Savepoint.initial (s : Savepoint) : Bool := !s.active

namespace TxnPipeliner

variable (tp : TxnPipeliner)

/-- `txnPipeliner.hasAcquiredLocks`. -/
def hasAcquiredLocks : Bool :=
  !tp.ifWrites.isEmpty || !tp.lockFootprint.empty

/-! ### On the way down -/

/-- The loop of `attachLocksToEndTxn` over the requests before the `EndTxn`. -/
def augment (et : EndTxn) (req : Request) : EndTxn :=
  let h := req.header
  if req.isLocking then
    if req.isIntentWrite && !req.isRange then
      { et with inFlightWrites := et.inFlightWrites ++ [⟨h.key, h.sequence, .intent⟩] }
    else { et with lockSpans := et.lockSpans ++ [h.span] }
  else et

/-- What `attachLocksToEndTxn` attaches. -/
def attached (et : EndTxn) (requests : List Request) : EndTxn :=
  let et := { et with
    lockSpans := tp.lockFootprint.asSlice
    inFlightWrites := tp.ifWrites.map InFlightWrite.write }
  let et := requests.foldl augment et
  { et with
    lockSpans := mergePlain et.lockSpans
    inFlightWrites := et.inFlightWrites.insertionSort fun a b => a.sequence ≤ b.sequence }

/-- `txnPipeliner.attachLocksToEndTxn`. -/
def attachLocksToEndTxn (ba : BatchRequest) : Except SendError BatchRequest :=
  match ba.requests.getLast? with
  | some (.endTxn h et) =>
    if et.lockSpans ≠ [] then throw .assertionFailed
    else if et.inFlightWrites ≠ [] then throw .assertionFailed
    else
      let requests := ba.requests.dropLast
      return { ba with requests := requests ++ [.endTxn h (attached tp et requests)] }
  | _ => return ba

/-- `BatchRequest.IsLocking`. -/
def isLockingBatch (ba : BatchRequest) : Bool := ba.requests.any Request.isLocking

/-- `txnPipeliner.maybeRejectOverBudget`: whether the batch is rejected, and the pipeliner,
whose spans may get merged. -/
def maybeRejectOverBudget (ba : BatchRequest) (maxBytes : Int) : TxnPipeliner × Bool :=
  if !isLockingBatch ba then (tp, false)
  else
    let locksBudget := maxBytes - tp.ifWrites.byteSize
    let (footprint, estimate) := tp.lockFootprint.estimateSize
      ((lockSpans ba.requests).map Span.raw) locksBudget
    ({ tp with lockFootprint := footprint }, locksBudget < estimate)

/-- The deleted keys are needed to verify the writes of a `DeleteRange`. -/
def returningKeys : Request → Request
  | .deleteRange h _ inline tombstone => .deleteRange h true inline tombstone
  | req => req

/-- The loop of `canUseAsyncConsensus`, with the requests as it leaves them. -/
def asyncLoop (tp : TxnPipeliner) (st : Settings) : List Request → Int → List Request × Bool
  | [], _ => ([], true)
  | req :: rest, addedIFBytes =>
    let req := returningKeys req
    if !req.canPipeline then (req :: rest, false)
    else if req.isRange && !st.pipelinedRangedWritesEnabled then (req :: rest, false)
    else if !req.isIntentWrite && !st.pipelinedLockingReadsEnabled then (req :: rest, false)
    else
      let addedIFBytes := addedIFBytes + req.header.key.length
      if st.trackedWritesMaxSize < tp.ifWrites.byteSize + addedIFBytes + tp.lockFootprint.bytes
      then (req :: rest, false)
      else
        let (rest, ok) := asyncLoop tp st rest addedIFBytes
        (req :: rest, ok)

/-- `txnPipeliner.canUseAsyncConsensus`, with the requests as it leaves them. -/
def canUseAsyncConsensus (st : Settings) (ba : BatchRequest) : List Request × Bool :=
  if ba.endTxn?.isSome then (ba.requests, false)
  else if !st.pipelinedWritesEnabled || tp.disabled then (ba.requests, false)
  else if 0 < st.pipelinedWritesMaxBatchSize ∧
      st.pipelinedWritesMaxBatchSize < ba.requests.length then (ba.requests, false)
  else asyncLoop tp st ba.requests 0

/-- Whether a request has to be chained onto an in-flight write. -/
def chainsOnto (req : Request) (w : SequencedWrite) : Bool :=
  -- the header of such a request does not tell what it touches
  if !req.isTransactional then true
  else
    match req with
    | .endTxn _ et => et.commit
    | _ => w.key ∈ req.header.span

/-- The `QueryIntent` for a write. -/
def queryIntentFor (ignored : List IgnoredSeqNumRange) (w : SequencedWrite) : Request :=
  .queryIntent { key := w.key }
    { txnSequence := w.sequence, strength := w.strength, ignoredSeqNums := ignored }

/-- The variables of the loop of `chainToInFlightWrites`. -/
structure Chaining where
  ifWrites : InFlightWriteSet
  chainCount : Nat := 0
  requests : List Request := []
  deriving DecidableEq, Repr

/-- One round of the loop of `chainToInFlightWrites`. -/
def chainRequest (ignored : List IgnoredSeqNumRange) (chainIndex : Nat) (c : Chaining)
    (req : Request) : Chaining :=
  if c.chainCount < c.ifWrites.length then
    let unchained := c.ifWrites.filter fun x =>
      chainsOnto req x.write && decide (x.chainIndex ≠ chainIndex)
    { ifWrites := c.ifWrites.map fun x =>
        if chainsOnto req x.write then { x with chainIndex } else x
      chainCount := c.chainCount + unchained.length
      requests := c.requests ++ unchained.map (fun x => queryIntentFor ignored x.write) ++ [req] }
  else { c with requests := c.requests ++ [req] }

/-- `txnPipeliner.chainToInFlightWrites`. -/
def chainToInFlightWrites (ignored : List IgnoredSeqNumRange)
    (ba : BatchRequest) : TxnPipeliner × BatchRequest :=
  if tp.ifWrites = [] then (tp, ba)
  else
    let chainIndex := tp.ifWritesChainIndex + 1
    let c := ba.requests.foldl (chainRequest ignored chainIndex) { ifWrites := tp.ifWrites }
    ({ tp with ifWrites := c.ifWrites, ifWritesChainIndex := chainIndex },
      { ba with requests := c.requests })

/-- Whether the batch is rejected because it would exceed the budget. -/
def checkBudget (st : Settings) (ba : BatchRequest) : TxnPipeliner × Bool :=
  if st.rejectTxnOverTrackedWritesBudget then
    maybeRejectOverBudget tp ba st.trackedWritesMaxSize
  else (tp, false)

/-- The batch with its flag and its `QueryIntent`s. -/
def pipeline (st : Settings) (ignored : List IgnoredSeqNumRange)
    (ba : BatchRequest) : TxnPipeliner × BatchRequest :=
  let (requests, async) := canUseAsyncConsensus tp st ba
  chainToInFlightWrites tp ignored { ba with requests, asyncConsensus := async }

/-- `txnPipeliner.SendLocked` up to where the batch is sent on. -/
def prepare (st : Settings) (ignored : List IgnoredSeqNumRange)
    (ba : BatchRequest) : TxnPipeliner × Except SendError BatchRequest :=
  match attachLocksToEndTxn tp ba with
  | .error e => (tp, .error e)
  | .ok ba =>
    let (tp, reject) := checkBudget tp st ba
    if reject then (tp, .error .lockSpansOverBudget)
    else
      let (tp, ba) := pipeline tp st ignored ba
      (tp, .ok ba)

/-! ### On the way back -/

end TxnPipeliner

/-- `kvpb.ErrorPriority`. -/
inductive ErrorPriority where
  | txnRestart
  | unambiguousError
  | nonRetriable
  | txnAbort
  deriving DecidableEq, Repr

/-- The errors of a batch, as far as they are told apart. -/
inductive ErrorDetail where
  | intentMissing
  | txnAborted
  /-- any other retriable error -/
  | retry
  /-- `ConditionFailedError` or `WriteIntentError` -/
  | unambiguous
  | other
  deriving DecidableEq, Repr

/-- `kvpb.ErrPriority`. -/
def ErrorDetail.priority : ErrorDetail → ErrorPriority
  | .intentMissing | .retry => .txnRestart
  | .txnAborted => .txnAbort
  | .unambiguous => .unambiguousError
  | .other => .nonRetriable

/-- At most `ErrorScoreUnambiguousError`. -/
def ErrorDetail.isUnambiguous (d : ErrorDetail) : Bool :=
  match d.priority with
  | .txnRestart | .unambiguousError => true
  | .nonRetriable | .txnAbort => false

/-- `kvpb.Error`, with the timestamp of its transaction. -/
structure Error where
  detail : ErrorDetail
  index : Option Nat := none
  writeTimestamp : Hlc.Timestamp := {}
  deriving DecidableEq, Repr

/-- `kvpb.BatchResponse`, with the status and the timestamp of its transaction. -/
structure BatchResponse where
  status : TransactionStatus := .pending
  writeTimestamp : Hlc.Timestamp := {}
  responses : List Response
  deriving DecidableEq, Repr, Inhabited

/-- What comes back for a batch. -/
abbrev Result := Except Error BatchResponse

/-- The process stops: unexpected multi-key intent pipelined. -/
inductive Fatal where
  | multiKeyIntentPipelined
  deriving DecidableEq, Repr

namespace TxnPipeliner

variable (tp : TxnPipeliner)

/-- Tracks the locks of a request that succeeded. -/
def trackLocks (async : Bool) (req : Request) (resp : Response) : Except Fatal TxnPipeliner :=
  let spans := lockSpanIterate req (some resp)
  if async then
    if spans.any fun sp => sp.endKey ≠ [] then throw .multiKeyIntentPipelined
    else
      return { tp with
        ifWrites := spans.foldl
          (fun s sp => s.insert ⟨sp.key, req.header.sequence, req.lockStrength⟩) tp.ifWrites }
  else return { tp with lockFootprint := tp.lockFootprint.insertPlain spans }

/-- One round of the loop of `updateLockTrackingInner`. -/
def trackResponse (async : Bool) (tp : TxnPipeliner) (r : Request × Response) :
    Except Fatal TxnPipeliner :=
  match r.1 with
  | .queryIntent h args =>
    -- an empty response of a request that was not evaluated proves nothing
    if r.2.foundIntent || r.2.foundUnpushedIntent then
      return { tp with
        ifWrites := tp.ifWrites.remove ⟨h.key, args.txnSequence, args.strength⟩
        lockFootprint := tp.lockFootprint.insertPlain [⟨h.key, []⟩] }
    else return tp
  | req => if req.isLocking then tp.trackLocks async req r.2 else return tp

/-- The requests of a failed batch whose locks are tracked: all but the one that an
unambiguous error is about. -/
def strippedRequests (ba : BatchRequest) (err : Error) : List Request :=
  match err.index with
  | some i => if err.detail.isUnambiguous then ba.requests.eraseIdx i else ba.requests
  | none => ba.requests

/-- `txnPipeliner.updateLockTrackingInner`. -/
def updateLockTrackingInner (ba : BatchRequest) (res : Result) : Except Fatal TxnPipeliner :=
  match res with
  | .error err =>
    return { tp with
      lockFootprint := tp.lockFootprint.insertPlain (lockSpans (strippedRequests ba err)) }
  | .ok br =>
    match br.status with
    | .aborted =>
      return { tp with lockFootprint := tp.lockFootprint.insertPlain (lockSpans ba.requests) }
    | .committed => return { tp with ifWrites := [] }
    | .pending | .staging =>
      (ba.requests.zip br.responses).foldlM (trackResponse ba.asyncConsensus) tp

/-- What `updateLockTracking` does when the footprint is over budget. -/
def condenseIfOverBudget (st : Settings) (ri : RangeIterator) : TxnPipeliner :=
  let locksBudget := st.trackedWritesMaxSize - tp.ifWrites.byteSize
  if tp.lockFootprint.bytes ≤ locksBudget then tp
  else if st.rejectTxnOverTrackedWritesBudget then tp
  else { tp with lockFootprint := (tp.lockFootprint.maybeCondense ri locksBudget).1 }

/-- `txnPipeliner.updateLockTracking`; `ri` finds the range of a key. -/
def updateLockTracking (st : Settings) (ri : RangeIterator)
    (ba : BatchRequest) (res : Result) : Except Fatal TxnPipeliner :=
  (tp.updateLockTrackingInner ba res).map fun tp => tp.condenseIfOverBudget st ri

/-- `txnPipeliner.adjustError`: a missing intent becomes a retriable error, and the index
no longer counts the `QueryIntent`s. -/
def adjustError (ba : BatchRequest) (err : Error) : Error :=
  { err with
    detail := if err.detail = .intentMissing then .retry else err.detail
    index := err.index.map fun i => i - (ba.requests.take i).countP fun req =>
      match req with
      | .queryIntent _ _ => true
      | _ => false }

/-! ### Epochs and savepoints -/

/-- The keys of in-flight writes, as spans. -/
def keySpans (ws : InFlightWriteSet) : List Span := ws.map fun x => ⟨x.write.key, []⟩

/-- `txnPipeliner.epochBumpedLocked`. -/
def epochBumpedLocked : TxnPipeliner :=
  if tp.ifWrites = [] then tp
  else
    { tp with
      lockFootprint := (tp.lockFootprint.insertPlain (keySpans tp.ifWrites)).mergeAndSort
      ifWrites := [] }

/-- `txnPipeliner.rollbackToSavepointLocked`. -/
def rollbackToSavepointLocked (s : Savepoint) : TxnPipeliner :=
  let writesToDelete := tp.ifWrites.filter fun x => decide (s.seqNum ≤ x.write.sequence)
  { tp with
    lockFootprint := (tp.lockFootprint.insertPlain (keySpans writesToDelete)).mergeAndSort
    ifWrites :=
      if s.initial then []
      else writesToDelete.foldl (fun ws x => ws.remove x.write) tp.ifWrites }

end TxnPipeliner

end Cockroach.KvCoord
