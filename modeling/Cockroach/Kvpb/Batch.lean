import Cockroach.Lib.Search
import Cockroach.Roachpb.Span

/-!
# Requests and responses (`kvpb/api.go`, `kvpb/batch.go`)

Requests with what the interceptors of the transaction coordinator read of them. The
properties that `api.go` keeps as flags are functions here. Of a response there are the keys
it returns, where it says to resume and what a `QueryIntent` or an `EndTxn` found.
-/

namespace Cockroach.Roachpb

open Lib

/-- `enginepb.IgnoredSeqNumRange`, both ends included; sequence numbers are natural numbers. -/
structure IgnoredSeqNumRange where
  start : Nat
  endSeq : Nat
  deriving DecidableEq, Repr, Inhabited

/-- `TxnSeqIsIgnored`. -/
def txnSeqIsIgnored (seq : Nat) (ignored : List IgnoredSeqNumRange) : Bool :=
  match ignored[searchList ignored fun r => decide (seq ≤ r.endSeq)]? with
  | some r => decide (r.start ≤ seq)
  | none => false

/-- `Transaction.AddIgnoredSeqNumRange`. -/
def addIgnoredSeqNumRange (list : List IgnoredSeqNumRange) (newRange : IgnoredSeqNumRange) :
    List IgnoredSeqNumRange :=
  list.take (searchList list fun r => decide (newRange.start ≤ r.endSeq)) ++ [newRange]

end Cockroach.Roachpb

namespace Cockroach.Kvpb

open Roachpb Storage Hlc

/-- `lock.Strength`. -/
inductive Strength where
  | none
  | shared
  | update
  | exclusive
  | intent
  deriving DecidableEq, Repr, Inhabited

/-- The number of a strength. -/
def Strength.toNat : Strength → Nat
  | .none => 0
  | .shared => 1
  | .update => 2
  | .exclusive => 3
  | .intent => 4

/-- `lock.Durability`. -/
inductive Durability where
  | unreplicated
  | replicated
  deriving DecidableEq, Repr, Inhabited

/-- The lock that a read acquires (`KeyLockingStrength`, `KeyLockingDurability`). -/
structure KeyLocking where
  strength : Strength := .none
  durability : Durability := .unreplicated
  deriving DecidableEq, Repr, Inhabited

/-- `kvpb.RequestHeader`. -/
structure RequestHeader where
  key : Key
  endKey : Key := []
  sequence : Nat := 0
  deriving DecidableEq, Repr, Inhabited

/-- `RequestHeader.Span`. -/
def RequestHeader.span (h : RequestHeader) : Span := ⟨h.key, h.endKey⟩

/-- `roachpb.SequencedWrite`. -/
structure SequencedWrite where
  key : Key
  sequence : Nat
  strength : Strength
  deriving DecidableEq, Repr, Inhabited

/-- The writes of a single key: they all leave an intent when they succeed. -/
inductive PointWrite where
  | put
  | conditionalPut
  | initPut
  | increment
  | delete
  deriving DecidableEq, Repr, Inhabited

/-- `kvpb.EndTxnRequest`. -/
structure EndTxn where
  commit : Bool
  deadline : Timestamp := {}
  internalCommitTrigger : Bool := false
  require1PC : Bool := false
  lockSpans : List Span := []
  inFlightWrites : List SequencedWrite := []
  deriving DecidableEq, Repr, Inhabited

/-- `kvpb.QueryIntentRequest`, of which `ErrorIfMissing` is set. -/
structure QueryIntent where
  txnSequence : Nat
  strength : Strength
  ignoredSeqNums : List IgnoredSeqNumRange := []
  deriving DecidableEq, Repr, Inhabited

/-- `kvpb.Request`. -/
inductive Request where
  | get (header : RequestHeader) (locking : KeyLocking)
  | scan (header : RequestHeader) (locking : KeyLocking) (colBatchResponse : Bool)
  | reverseScan (header : RequestHeader) (locking : KeyLocking) (colBatchResponse : Bool)
  | pointWrite (method : PointWrite) (header : RequestHeader)
  | deleteRange (header : RequestHeader) (returnKeys inline useRangeTombstone : Bool)
  | endTxn (header : RequestHeader) (args : EndTxn)
  | queryIntent (header : RequestHeader) (args : QueryIntent)
  /-- any other request: it acquires no locks and does not have to be refreshed -/
  | other (header : RequestHeader) (isTxn isRange : Bool)
  deriving DecidableEq, Repr, Inhabited

namespace Request

/-- `Request.Header`. -/
def header : Request → RequestHeader
  | get h _ | scan h _ _ | reverseScan h _ _ | pointWrite _ h | deleteRange h _ _ _
  | endTxn h _ | queryIntent h _ | other h _ _ => h

/-- `Request.SetHeader`. -/
def setHeader (h : RequestHeader) : Request → Request
  | get _ l => get h l
  | scan _ l c => scan h l c
  | reverseScan _ l c => reverseScan h l c
  | pointWrite m _ => pointWrite m h
  | deleteRange _ r i u => deleteRange h r i u
  | endTxn _ a => endTxn h a
  | queryIntent _ a => queryIntent h a
  | other _ t r => other h t r

/-- `IsLocking`. -/
def isLocking : Request → Bool
  | get _ l | scan _ l _ | reverseScan _ l _ => l.strength ≠ .none
  | pointWrite _ _ => true
  | deleteRange _ _ inline tombstone => !inline && !tombstone
  | _ => false

/-- `IsIntentWrite`. -/
def isIntentWrite : Request → Bool
  | pointWrite _ _ => true
  | deleteRange _ _ inline tombstone => !inline && !tombstone
  | _ => false

/-- `IsRange`. -/
def isRange : Request → Bool
  | scan _ _ _ | reverseScan _ _ _ | deleteRange _ _ _ _ => true
  | other _ _ r => r
  | _ => false

/-- `IsTransactional`. -/
def isTransactional : Request → Bool
  | deleteRange _ _ inline tombstone => !inline && !tombstone
  | queryIntent _ _ => false
  | other _ t _ => t
  | _ => true

/-- `CanPipeline`. -/
def canPipeline : Request → Bool
  | get _ l | scan _ l _ | reverseScan _ l _ => l.durability = .replicated
  | pointWrite _ _ => true
  | deleteRange _ returnKeys inline tombstone => returnKeys && !inline && !tombstone
  | _ => false

/-- `CanParallelCommit`. -/
def canParallelCommit : Request → Bool
  | pointWrite _ _ => true
  | _ => false

/-- The strength of the locks of a locking request: that of a read, or an intent. -/
def lockStrength : Request → Strength
  | get _ l | scan _ l _ | reverseScan _ l _ => l.strength
  | _ => .intent

end Request

/-- What the interceptors read of a `kvpb.Response`. -/
structure Response where
  /-- the value of a `Get` is not nil -/
  hasValue : Bool := false
  /-- the keys of the rows of a scan, or those that a `DeleteRange` returns -/
  keys : List Key := []
  resumeSpan : Option Span := none
  foundIntent : Bool := false
  foundUnpushedIntent : Bool := false
  stagingTimestamp : Timestamp := {}
  deriving DecidableEq, Repr, Inhabited

/-- `canIterateResponseKeys`, of a response that there is. -/
def canIterateResponseKeys : Request → Bool
  | .get _ _ => true
  | .scan _ _ colBatch | .reverseScan _ _ colBatch => !colBatch
  | .deleteRange _ returnKeys _ _ => returnKeys
  | _ => false

/-- The keys that `ResponseKeyIterate` passes on. -/
def responseKeys (req : Request) (resp : Response) : List Key :=
  match req with
  | .get h _ => if resp.hasValue then [h.key] else []
  | _ => resp.keys

/-- `actualSpan`. -/
def actualSpan (req : Request) (resp : Option Response) : Option Span :=
  let h := req.header
  match resp.bind Response.resumeSpan with
  | none => some h.span
  | some resume =>
    -- the reverse case first
    if resume.key = h.key then
      if resume.endKey = h.endKey then none else some ⟨resume.endKey, h.endKey⟩
    else some ⟨h.key, resume.key⟩

/-- The spans that `LockSpanIterate` passes on. -/
def lockSpanIterate (req : Request) (resp : Option Response) : List Span :=
  if !req.isLocking then []
  else
    match resp with
    | some r =>
      if canIterateResponseKeys req then (responseKeys req r).map fun k => ⟨k, []⟩
      else (actualSpan req resp).toList
    | none => (actualSpan req none).toList

/-- The spans that `BatchRequest.LockSpanIterate` passes on without a response. -/
def lockSpans (requests : List Request) : List Span :=
  requests.flatMap fun req => lockSpanIterate req none

theorem lockSpanIterate_none (req : Request) :
    lockSpanIterate req none = if req.isLocking then [req.header.span] else [] := by
  unfold lockSpanIterate
  cases req.isLocking <;> rfl

theorem mem_lockSpans {requests : List Request} {s : Span} :
    s ∈ lockSpans requests ↔ ∃ req ∈ requests, req.isLocking = true ∧ s = req.header.span := by
  unfold lockSpans
  simp only [List.mem_flatMap, lockSpanIterate_none]
  constructor
  · rintro ⟨req, hreq, hs⟩
    split_ifs at hs with hl
    · exact ⟨req, hreq, hl, List.mem_singleton.mp hs⟩
    · exact absurd hs List.not_mem_nil
  · rintro ⟨req, hreq, hl, rfl⟩
    refine ⟨req, hreq, ?_⟩
    rw [if_pos hl]
    exact List.mem_singleton_self _

/-- `kvpb.BatchRequest`, with its requests. -/
structure BatchRequest where
  requests : List Request
  asyncConsensus : Bool := false
  deriving DecidableEq, Repr, Inhabited

/-- `GetArg` for `EndTxn`: only the last request is looked at. -/
def BatchRequest.endTxn? (ba : BatchRequest) : Option EndTxn :=
  match ba.requests.getLast? with
  | some (.endTxn _ args) => some args
  | _ => none

theorem BatchRequest.getLast?_of_endTxn? {ba : BatchRequest} {et : EndTxn}
    (h : ba.endTxn? = some et) : ∃ hd, ba.requests.getLast? = some (.endTxn hd et) := by
  unfold BatchRequest.endTxn? at h
  split at h
  · rename_i hd args hlast
    cases h
    exact ⟨hd, hlast⟩
  · cases h

theorem BatchRequest.mem_of_endTxn? {ba : BatchRequest} {et : EndTxn}
    (h : ba.endTxn? = some et) : ∃ hd, Request.endTxn hd et ∈ ba.requests := by
  obtain ⟨hd, hlast⟩ := BatchRequest.getLast?_of_endTxn? h
  exact ⟨hd, List.mem_of_getLast? hlast⟩

/-- `roachpb.TransactionStatus`. -/
inductive TransactionStatus where
  | pending
  | staging
  | committed
  | aborted
  deriving DecidableEq, Repr, Inhabited

/-- `TransactionStatus.IsFinalized`. -/
def TransactionStatus.isFinalized : TransactionStatus → Bool
  | .committed | .aborted => true
  | .pending | .staging => false

end Cockroach.Kvpb
