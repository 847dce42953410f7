import Cockroach.KvCoord.Pipeliner

/-!
# The transaction coordinator (`txn_coord_sender.go`)

The state of a root `TxnCoordSender`, with its sequence number allocator
(`txn_interceptor_seq_num_allocator.go`), its pipeliner and its savepoints
(`txn_coord_sender_savepoints.go`). What the interceptors below the pipeliner make of a batch
is the result that `receive` is given.
-/

namespace Cockroach.KvCoord

open Kvpb Roachpb Storage

/-! ## Sequence numbers -/

/-- `txnSeqNumAllocator`. -/
structure TxnSeqNumAllocator where
  writeSeq : Nat := 0
  readSeq : Nat := 0
  steppingMode : Bool := false
  deriving DecidableEq, Repr, Inhabited

namespace TxnSeqNumAllocator

variable (s : TxnSeqNumAllocator)

/-- `txnSeqNumAllocator.stepReadSeqLocked`. -/
def stepReadSeqLocked : Except SendError TxnSeqNumAllocator :=
  if s.writeSeq < s.readSeq then throw .assertionFailed
  else return { s with readSeq := s.writeSeq }

/-- `txnSeqNumAllocator.manualStepReadSeqLocked`. -/
def manualStepReadSeqLocked : Except SendError TxnSeqNumAllocator :=
  if !s.steppingMode then throw .assertionFailed else s.stepReadSeqLocked

/-- `txnSeqNumAllocator.stepWriteSeqLocked`. -/
def stepWriteSeqLocked : Except SendError TxnSeqNumAllocator :=
  let s := { s with writeSeq := s.writeSeq + 1 }
  -- only manual stepping is allowed in stepping mode
  if s.steppingMode then return s else s.stepReadSeqLocked

/-- `txnSeqNumAllocator.configureSteppingLocked`. -/
def configureSteppingLocked (newMode : Bool) : TxnSeqNumAllocator :=
  { s with
    steppingMode := newMode
    readSeq := if !s.steppingMode && newMode then s.writeSeq else s.readSeq }

/-- `txnSeqNumAllocator.epochBumpedLocked`. -/
def epochBumpedLocked : TxnSeqNumAllocator :=
  { s with writeSeq := 0, readSeq := 0 }

/-- Whether a request gets a sequence number of its own. -/
def stepsWriteSeq : Request → Bool
  | .endTxn _ _ => true
  | req => req.isIntentWrite

/-- The loop of `txnSeqNumAllocator.SendLocked`. -/
def assign (s : TxnSeqNumAllocator) :
    List Request → Except SendError (TxnSeqNumAllocator × List Request)
  | [] => return (s, [])
  | req :: rest => do
      if stepsWriteSeq req then
        let s ← s.stepWriteSeqLocked
        let (s', rest) ← assign s rest
        return (s', req.setHeader { req.header with sequence := s.writeSeq } :: rest)
      else
        let (s', rest) ← assign s rest
        return (s', req.setHeader { req.header with sequence := s.readSeq } :: rest)

/-- `txnSeqNumAllocator.SendLocked` up to where the batch is sent on. -/
def sendLocked (ignored : List IgnoredSeqNumRange)
    (requests : List Request) : Except SendError (TxnSeqNumAllocator × List Request) :=
  if txnSeqIsIgnored s.readSeq ignored then throw .assertionFailed else s.assign requests

end TxnSeqNumAllocator

/-! ## The coordinator -/

/-- `txnState`. -/
inductive TxnState where
  | pending
  | retryableError
  | error
  | finalized
  deriving DecidableEq, Repr, Inhabited

/-- A root `TxnCoordSender`. -/
structure TxnCoordSender where
  active : Bool := false
  txnState : TxnState := .pending
  status : TransactionStatus := .pending
  writeTimestamp : Hlc.Timestamp := {}
  epoch : Nat := 0
  /-- the isolation level reads each statement at a snapshot of its own -/
  perStatementReadSnapshot : Bool := false
  ignoredSeqNums : List IgnoredSeqNumRange := []
  seqNums : TxnSeqNumAllocator := {}
  pipeliner : TxnPipeliner := {}
  deriving DecidableEq, Repr, Inhabited

/-- Why a savepoint is refused. -/
inductive SavepointError where
  | finalized
  | inErrorTxn
  | afterRestart
  | invalid
  | step (e : SendError)
  deriving DecidableEq, Repr

/-- What `Send` does with a batch. -/
inductive Sent where
  /-- the batch does not get past the coordinator or its interceptors -/
  | rejected
  /-- a lone `EndTxn` of a transaction without locks is not sent -/
  | finalizedLocally
  | sent (ba : BatchRequest)
  deriving DecidableEq, Repr

namespace TxnCoordSender

variable (tc : TxnCoordSender)

/-- `stepWriteSeqLocked` if the transaction has acquired locks. -/
def stepIfLocked : Except SavepointError TxnCoordSender :=
  if tc.pipeliner.hasAcquiredLocks then
    match tc.seqNums.stepWriteSeqLocked with
    | .ok seqNums => return { tc with seqNums }
    | .error e => throw (.step e)
  else return tc

/-- `TxnCoordSender.CreateSavepoint`. -/
def createSavepoint : Except SavepointError (Savepoint × TxnCoordSender) :=
  if tc.txnState = .finalized then throw .finalized
  else if tc.txnState ≠ .pending then throw .inErrorTxn
  else if !tc.active then return ({}, tc)
  else
    tc.stepIfLocked.map fun tc =>
      ({ active := true, epoch := tc.epoch, seqNum := tc.seqNums.writeSeq }, tc)

/-- `TxnCoordSender.checkSavepointLocked`. -/
def checkSavepointLocked (sp : Savepoint) : Except SavepointError Unit :=
  if sp.initial then return ()
  else if sp.epoch ≠ tc.epoch then throw .afterRestart
  else if tc.seqNums.writeSeq < sp.seqNum then throw .invalid
  else return ()

/-- The end of `RollbackToSavepoint`, once the interceptors have rolled back: the writes
since the savepoint are ignored from now on. -/
def ignoreSince (seqNum : Nat) : TxnCoordSender :=
  if tc.pipeliner.hasAcquiredLocks then
    { tc with
      ignoredSeqNums := addIgnoredSeqNumRange tc.ignoredSeqNums ⟨seqNum, tc.seqNums.writeSeq⟩ }
  else tc

/-- `TxnCoordSender.RollbackToSavepoint`. -/
def rollbackToSavepoint (sp : Savepoint) : Except SavepointError TxnCoordSender :=
  if tc.txnState = .finalized then throw .finalized
  else if tc.txnState = .error then throw .inErrorTxn
  else
    match tc.checkSavepointLocked sp with
    | .error e => throw e
    | .ok () =>
      let tc := { tc with
        active := sp.active
        pipeliner := tc.pipeliner.rollbackToSavepointLocked sp }
      (tc.ignoreSince sp.seqNum).stepIfLocked

/-- The only request of a batch, if it is an `EndTxn`. -/
def singleEndTxn? : List Request → Option EndTxn
  | [.endTxn _ et] => some et
  | _ => none

/-- `maybeRejectClientLocked` lets the batch pass. -/
def accepts (requests : List Request) : Bool :=
  -- rollbacks can be sent at any time
  ((singleEndTxn? requests).any (!·.commit) && tc.status ≠ .committed) ||
    (tc.txnState = .pending && tc.status = .pending)

/-- The status that `Transaction.Update` keeps of two in the same epoch. -/
def forwardStatus : TransactionStatus → TransactionStatus → TransactionStatus
  | .pending, s => s
  | .staging, .pending => .staging
  | .staging, s => s
  | s, _ => s

/-- The interceptors' `epochBumpedLocked`, in the transaction that `Restart` has reset. -/
def bumpEpoch : TxnCoordSender :=
  { tc with
    epoch := tc.epoch + 1
    ignoredSeqNums := []
    seqNums := tc.seqNums.epochBumpedLocked
    pipeliner := tc.pipeliner.epochBumpedLocked }

/-- `TxnCoordSender.handleRetryableErrLocked`. -/
def handleRetryableErrLocked (d : ErrorDetail) : TxnCoordSender :=
  if d = .txnAborted then { tc with txnState := .retryableError, status := .aborted }
  else if tc.perStatementReadSnapshot then { tc with txnState := .retryableError }
  else { tc.bumpEpoch with txnState := .retryableError }

/-- The error state that a non-retriable error leaves behind. -/
def fail : TxnCoordSender := { tc with txnState := .error }

/-- A batch on its way through the allocator and the pipeliner. -/
def sendToInterceptors (st : Settings) (requests : List Request) : TxnCoordSender × Sent :=
  match tc.seqNums.sendLocked tc.ignoredSeqNums requests with
  | .error _ => (tc.fail, .rejected)
  | .ok (seqNums, requests) =>
    let tc := { tc with seqNums }
    match tc.pipeliner.prepare st tc.ignoredSeqNums { requests } with
    | (pipeliner, .error _) => ({ tc with pipeliner }.fail, .rejected)
    | (pipeliner, .ok ba) => ({ tc with pipeliner }, .sent ba)

/-- `TxnCoordSender.finalizeNonLockingTxnLocked`. -/
def finalizeNonLockingTxnLocked (et : EndTxn) : TxnCoordSender × Sent :=
  if et.commit ∧ et.deadline ≠ {} ∧ et.deadline ≤ tc.writeTimestamp then
    (tc.handleRetryableErrLocked .retry, .rejected)
  else
    ({ tc with
        status := if et.commit then .committed else .aborted
        txnState := .finalized }, .finalizedLocally)

/-- `TxnCoordSender.Send` up to where the batch leaves the pipeliner. -/
def send (st : Settings) (requests : List Request) : TxnCoordSender × Sent :=
  let tc := { tc with active := true }
  if !tc.accepts requests then (tc, .rejected)
  else if requests = [] then (tc, .rejected)
  else if tc.pipeliner.hasAcquiredLocks then tc.sendToInterceptors st requests
  else
    match singleEndTxn? requests with
    | some et => tc.finalizeNonLockingTxnLocked et
    | none => tc.sendToInterceptors st requests

/-- `TxnCoordSender.updateStateLocked`. -/
def updateStateLocked (res : Result) : TxnCoordSender :=
  match res with
  | .ok br =>
    { tc with
      status := forwardStatus tc.status br.status
      writeTimestamp := tc.writeTimestamp.forward br.writeTimestamp }
  | .error err =>
    let tc := { tc with writeTimestamp := tc.writeTimestamp.forward err.writeTimestamp }
    match err.detail with
    | .intentMissing | .txnAborted | .retry => tc.handleRetryableErrLocked err.detail
    | .unambiguous => tc
    | .other => tc.fail

/-- Whether a batch ends the transaction: a commit that succeeds, or any rollback. -/
def finalizes (ba : BatchRequest) (res : Result) : Bool :=
  match ba.endTxn? with
  | some et => !et.commit || res.isOk
  | none => false

/-- `TxnCoordSender.Send` from where the result of a batch reaches the pipeliner. -/
def receive (st : Settings) (ri : RangeIterator) (ba : BatchRequest)
    (res : Result) : Except Fatal TxnCoordSender :=
  (tc.pipeliner.updateLockTracking st ri ba res).map fun pipeliner =>
    let tc := { tc with pipeliner }
    let tc := tc.updateStateLocked (res.mapError (TxnPipeliner.adjustError ba))
    if finalizes ba res then { tc with txnState := .finalized } else tc

/-- `TxnCoordSender.Step`. -/
def step : TxnCoordSender :=
  match tc.seqNums.manualStepReadSeqLocked with
  | .ok seqNums => { tc with seqNums }
  | .error _ => tc

/-- `TxnCoordSender.ConfigureStepping`. -/
def configureStepping (mode : Bool) : TxnCoordSender :=
  { tc with seqNums := tc.seqNums.configureSteppingLocked mode }

/-- `TxnCoordSender.ClearRetryableErr`. -/
def clearRetryableErr : TxnCoordSender :=
  if tc.txnState = .retryableError ∧ tc.status ≠ .aborted then { tc with txnState := .pending }
  else tc

end TxnCoordSender

end Cockroach.KvCoord
