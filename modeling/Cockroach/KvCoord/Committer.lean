import Cockroach.KvCoord.Coordinator

/-!
# The committer (`txn_interceptor_committer.go`)

The interceptor below the pipeliner. It decides whether an `EndTxn` can be sent together with
writes that are in flight, and makes a commit of a transaction that was only staged if all of
them were found at or below the timestamp that it was staged at.

The sender below is given by what it returns: `first` for the batch and `again` for an
`EndTxn` that is retried. That the errors' transactions are not staging for the interceptors
above is not modelled, as a status is only read of a response; the async task that makes a
commit explicit does not change what is reported.
-/

namespace Cockroach.KvCoord

open Kvpb Roachpb Storage Hlc

/-- What the committer reads of the batch's header. -/
structure BatchHeader where
  txnKey : Key
  txnWriteTimestamp : Timestamp := {}
  maxSpanRequestKeys : Nat := 0
  deriving DecidableEq, Repr

/-- `txnCommitter`. -/
structure TxnCommitter where
  disable1PC : Bool := false
  deriving DecidableEq, Repr, Inhabited

namespace TxnCommitter

/-- Whether a locking read asks for a replicated lock. -/
def locksReplicated : Request → Bool
  | .get _ l | .scan _ l _ | .reverseScan _ l _ => l.durability = .replicated
  | _ => false

/-- `txnCommitter.maybeDisable1PC`. -/
def maybeDisable1PC (c : TxnCommitter) (ba : BatchRequest) : TxnCommitter :=
  { c with disable1PC := c.disable1PC || ba.requests.any locksReplicated }

/-- An assertion or another error that cannot be retried. -/
def failure : Error := { detail := .other }

/-- `txnCommitter.validateEndTxnBatch`. -/
def validateEndTxnBatch (c : TxnCommitter) (header : BatchHeader) (ba : BatchRequest)
    (et : EndTxn) : Except Error Unit :=
  if header.maxSpanRequestKeys = 0 then return ()
  else
    let delRange := ba.requests.any fun req =>
      match req with
      | .deleteRange _ _ _ _ => true
      | _ => false
    if delRange && !et.require1PC then throw failure
    else if et.require1PC && c.disable1PC then throw failure
    else return ()

/-- Whether a request other than the `EndTxn` allows a parallel commit. -/
def allowsParallelCommit : Request → Bool
  -- these are also in flight writes of the `EndTxn`
  | .queryIntent _ _ => true
  | req => req.canParallelCommit

/-- `txnCommitter.canCommitInParallel`. -/
def canCommitInParallel (st : Settings) (ba : BatchRequest) (et : EndTxn) : Bool :=
  st.parallelCommitsEnabled && et.commit && !et.internalCommitTrigger &&
    ba.requests.dropLast.all allowsParallelCommit

/-- `mergeIntoSpans`; whether the spans are distinct is left out. -/
def mergeIntoSpans (s : List Span) (ws : List SequencedWrite) : List Span :=
  mergePlain (s ++ ws.map fun w => ⟨w.key, []⟩)

/-- The `EndTxn` with its in-flight writes moved to the lock spans. -/
def withoutInFlightWrites (et : EndTxn) : EndTxn :=
  { et with lockSpans := mergeIntoSpans et.lockSpans et.inFlightWrites, inFlightWrites := [] }

/-- The `EndTxn` that is sent on: without in-flight writes unless it is a parallel commit. -/
def adjusted (st : Settings) (ba : BatchRequest) (et : EndTxn) : EndTxn :=
  if et.inFlightWrites ≠ [] ∧ !canCommitInParallel st ba et then withoutInFlightWrites et else et

/-- The batch that is sent on, with the transaction's key in the header of its `EndTxn`. -/
def adjustedBatch (st : Settings) (header : BatchHeader) (ba : BatchRequest) (h : RequestHeader)
    (et : EndTxn) : BatchRequest :=
  { ba with
    requests := ba.requests.dropLast ++ [.endTxn { h with key := header.txnKey }
      (adjusted st ba et)] }

/-- `txnCommitter.sendLockedWithElidedEndTxn`. -/
def sendLockedWithElidedEndTxn (header : BatchHeader) (ba : BatchRequest) (et : EndTxn)
    (first : BatchRequest → Result) : Result := do
  let requests := ba.requests.dropLast
  let br ←
    if requests = [] then pure { writeTimestamp := header.txnWriteTimestamp, responses := [] }
    else first { ba with requests }
  if et.commit ∧ et.deadline ≠ {} ∧ et.deadline ≤ br.writeTimestamp then
    throw { detail := .retry }
  else
    return { br with
      status := if et.commit then .committed else .aborted
      responses := br.responses ++ [{}] }

/-- `isTxnCommitImplicit`. -/
def isTxnCommitImplicit (br : BatchResponse) : Except Error Bool :=
  match br.responses.getLast? with
  | none => throw failure
  | some resp =>
    if resp.stagingTimestamp = {} then throw failure
    else return !decide (resp.stagingTimestamp < br.writeTimestamp)

/-- `txnCommitter.retryTxnCommitAfterFailedParallelCommit`: only the `EndTxn` is sent again. -/
def retryTxnCommitAfterFailedParallelCommit (ba : BatchRequest) (h : RequestHeader) (et : EndTxn)
    (br : BatchResponse) (again : BatchRequest → Result) : Result := do
  let suffix ← again { ba with requests := [.endTxn h (withoutInFlightWrites et)] }
  -- `BatchResponse.Combine`
  let br := { br with
    status := TxnCoordSender.forwardStatus br.status suffix.status
    writeTimestamp := br.writeTimestamp.forward suffix.writeTimestamp
    responses := br.responses.dropLast ++ [suffix.responses.headD {}] }
  if br.status.isFinalized then return br else throw failure

/-- The end of `SendLocked` for a commit that has not failed. -/
def conclude (ba : BatchRequest) (h : RequestHeader) (et : EndTxn) (br : BatchResponse)
    (again : BatchRequest → Result) : Result :=
  match br.status with
  | .committed => return br
  | .staging => do
      let implicitCommit ← isTxnCommitImplicit br
      if implicitCommit then return { br with status := .committed }
      else retryTxnCommitAfterFailedParallelCommit ba h et br again
  | _ => throw failure

/-- `txnCommitter.SendLocked` for a batch with an `EndTxn`. -/
def sendEndTxn (st : Settings) (header : BatchHeader) (ba : BatchRequest) (h : RequestHeader)
    (et : EndTxn) (first again : BatchRequest → Result) : Result :=
  if et.lockSpans = [] ∧ et.inFlightWrites = [] then
    sendLockedWithElidedEndTxn header ba et first
  else if h.key ≠ [] then throw failure
  else
    let ba' := adjustedBatch st header ba h et
    if !et.commit then first ba'
    else do
      let br ← first ba'
      conclude ba' { h with key := header.txnKey } (adjusted st ba et) br again

/-- `txnCommitter.SendLocked`. -/
def sendLocked (c : TxnCommitter) (st : Settings) (header : BatchHeader) (ba : BatchRequest)
    (first again : BatchRequest → Result) : TxnCommitter × Result :=
  let c := c.maybeDisable1PC ba
  match ba.requests.getLast? with
  | some (.endTxn h et) =>
    (c, do
      c.validateEndTxnBatch header ba et
      sendEndTxn st header ba h et first again)
  | _ => (c, first ba)

end TxnCommitter

end Cockroach.KvCoord
