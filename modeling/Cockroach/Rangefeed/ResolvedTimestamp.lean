import Cockroach.Lib.Heap
import Cockroach.Util.Hlc

/-!
# Resolved timestamps (`resolved_timestamp.go`)

The queue of unresolved transactions and the resolved timestamp that is computed
from it and the closed timestamp. The heap holds pointers to the transactions of the
map; here it holds their ids, and what they point to is in the map, also while a
transaction is on its way out of both. Fatal log entries and panics are errors.
-/

namespace Cockroach.Rangefeed

open Lib Hlc

/-- `uuid.UUID`: 16 bytes, which compare as one big-endian number. -/
abbrev UUID := BitVec 128

instance instTransOrdUUID : Std.TransOrd UUID := inferInstance

/-- `isolation.Level`. -/
inductive Level
  | serializable
  | snapshot
  | readCommitted
  deriving DecidableEq, Repr

/-- The fatal log entries and panics. -/
inductive Fatal
  /-- closed timestamp below resolved timestamp -/
  | closedBelowResolved
  /-- unresolved txn equal to or below resolved timestamp -/
  | txnBelowResolved
  /-- resolved timestamp regression -/
  | regression
  /-- unexpected resolved timestamp change on recomputation -/
  | unexpectedChange
  /-- resolved timestamp equal to or above timestamp of operation -/
  | opBelowResolved
  /-- unknown logical op -/
  | unknownOp
  /-- negative refcount -/
  | negativeRefCount
  /-- unsupported reference count delta -/
  | refCountDelta
  /-- cannot take the previous value to a zero timestamp -/
  | zeroTimestamp
  deriving DecidableEq, Repr

/-- `unresolvedTxn`. -/
structure UnresolvedTxn where
  txnID : UUID
  txnKey : List UInt8
  txnIsoLevel : Level
  txnMinTimestamp : Timestamp
  timestamp : Timestamp
  refCount : Int
  /-- The position in the heap. -/
  index : Nat := 0
  deriving DecidableEq, Repr

/-- `unresolvedIntentQueue`. -/
structure UnresolvedIntentQueue where
  txns : Std.ExtTreeMap UUID UnresolvedTxn := ∅
  minHeap : List UUID := []
  allowNegRefCount : Bool := true

namespace UnresolvedIntentQueue

variable (q : UnresolvedIntentQueue)

/-- What the heap points to at position `i`. -/
def entry (i : Nat) : Option UnresolvedTxn :=
  q.minHeap[i]?.bind fun id => q.txns[id]?

/-- `unresolvedTxnHeap.Less`. -/
def less (i j : Nat) : Bool :=
  match q.entry i, q.entry j with
  | some a, some b =>
    if a.timestamp = b.timestamp then a.txnID < b.txnID else a.timestamp < b.timestamp
  | _, _ => false

/-- `unresolvedTxnHeap.Swap`. -/
def swap (i j : Nat) : UnresolvedIntentQueue :=
  match q.minHeap[i]?, q.minHeap[j]? with
  | some a, some b =>
    { q with
      minHeap := (q.minHeap.set i b).set j a
      txns := (q.txns.modify b fun t => { t with index := i }).modify a fun t =>
        { t with index := j } }
  | _, _ => q

/-- The queue as the heap routines see it. -/
def heap : Heap.Interface UnresolvedIntentQueue where
  len q := q.minHeap.length
  less := less
  swap := swap

/-- The new transaction, in the map and by `unresolvedTxnHeap.Push`. -/
def add (txn : UnresolvedTxn) (q : UnresolvedIntentQueue) : UnresolvedIntentQueue :=
  { q with
    txns := q.txns.insert txn.txnID { txn with index := q.minHeap.length }
    minHeap := q.minHeap ++ [txn.txnID] }

/-- `unresolvedTxnHeap.Pop`. -/
def pop : UnresolvedIntentQueue :=
  { q with minHeap := q.minHeap.dropLast }

/-- `heap.Remove` of a transaction and its deletion from the map. -/
def drop (txn : UnresolvedTxn) : UnresolvedIntentQueue :=
  let q := Heap.remove heap pop q txn.index
  { q with txns := q.txns.erase txn.txnID }

/-- `unresolvedIntentQueue.Oldest`. -/
def oldest : Option UnresolvedTxn := q.entry 0

/-- `unresolvedIntentQueue.updateTxn`. -/
def updateTxn (txnID : UUID) (txnKey : List UInt8)
    (txnIsoLevel : Level) (txnMinTS ts : Timestamp) (delta : Int) :
    Except Fatal (UnresolvedIntentQueue × Bool) :=
  match q.txns[txnID]? with
  | none =>
    if delta = 0 ∨ delta < 0 ∧ ¬ q.allowNegRefCount then return (q, false)
    else
      let txn : UnresolvedTxn :=
        { txnID, txnKey, txnIsoLevel, txnMinTimestamp := txnMinTS, timestamp := ts,
          refCount := delta }
      return (Heap.push heap (add txn) q, false)
  | some txn =>
    let wasMin : Bool := txn.index = 0
    if delta < -1 ∨ delta > 1 then throw .refCountDelta
    else
      let txn := { txn with refCount := txn.refCount + delta }
      if txn.refCount = 0 then return (q.drop txn, wasMin)
      else
        let q := { q with txns := q.txns.insert txnID txn }
        if txn.timestamp < ts then
          let q := { q with txns := q.txns.insert txnID { txn with timestamp := ts } }
          return (Heap.fix heap q txn.index, wasMin)
        else return (q, false)

/-- `unresolvedIntentQueue.IncRef`. -/
def incRef (txnID : UUID) (txnKey : List UInt8) (txnIsoLevel : Level)
    (txnMinTS ts : Timestamp) : Except Fatal (UnresolvedIntentQueue × Bool) :=
  q.updateTxn txnID txnKey txnIsoLevel txnMinTS ts 1

/-- `unresolvedIntentQueue.DecrRef`. -/
def decrRef (txnID : UUID) (ts : Timestamp) : Except Fatal (UnresolvedIntentQueue × Bool) :=
  q.updateTxn txnID [] .serializable {} ts (-1)

/-- `unresolvedIntentQueue.UpdateTS`. -/
def updateTS (txnID : UUID) (ts : Timestamp) : Except Fatal (UnresolvedIntentQueue × Bool) :=
  q.updateTxn txnID [] .serializable {} ts 0

/-- `unresolvedIntentQueue.Del`. -/
def del (txnID : UUID) : UnresolvedIntentQueue × Bool :=
  match q.txns[txnID]? with
  | none => (q, false)
  | some txn => (q.drop txn, txn.index = 0)

/-- `unresolvedIntentQueue.assertOnlyPositiveRefCounts`. -/
def assertOnlyPositiveRefCounts : Except Fatal Unit :=
  if q.txns.toList.any fun e => e.2.refCount ≤ 0 then throw .negativeRefCount else return ()

/-- `unresolvedIntentQueue.AllowNegRefCount`. -/
def setAllowNegRefCount (b : Bool) : Except Fatal UnresolvedIntentQueue := do
  if ¬ b then q.assertOnlyPositiveRefCounts
  return { q with allowNegRefCount := b }

end UnresolvedIntentQueue

/-- `enginepb.MVCCLogicalOp`, with what is read of each operation. -/
inductive MVCCLogicalOp
  | writeValue (timestamp : Timestamp)
  | deleteRange (timestamp : Timestamp)
  | writeIntent (txnID : UUID) (txnKey : List UInt8) (txnIsoLevel : Level)
      (txnMinTimestamp timestamp : Timestamp)
  | updateIntent (txnID : UUID) (timestamp : Timestamp)
  | commitIntent (txnID : UUID) (timestamp : Timestamp)
  | abortIntent (txnID : UUID)
  | abortTxn (txnID : UUID)
  /-- No operation is set. -/
  | unset
  deriving DecidableEq, Repr

/-- `resolvedTimestamp`. -/
structure ResolvedTimestamp where
  init : Bool := false
  closedTS : Timestamp := {}
  resolvedTS : Timestamp := {}
  intentQ : UnresolvedIntentQueue := {}

namespace ResolvedTimestamp

variable (rts : ResolvedTimestamp)

/-- `resolvedTimestamp.Get`. -/
def get : Timestamp := rts.resolvedTS

/-- The part of `recompute` that takes the oldest transaction into account. -/
def lowerBound : Except Fatal Timestamp :=
  match rts.intentQ.oldest with
  | none => return rts.closedTS
  | some txn =>
    if txn.timestamp ≤ rts.resolvedTS then throw .txnBelowResolved
    else
      match txn.timestamp.prev with
      | none => throw .zeroTimestamp
      | some txnTS => return rts.closedTS.backward txnTS

/-- `resolvedTimestamp.recompute`. -/
def recompute : Except Fatal (ResolvedTimestamp × Bool) := do
  if ¬ rts.init then return (rts, false)
  if rts.closedTS < rts.resolvedTS then throw .closedBelowResolved
  let newTS ← rts.lowerBound
  -- The logical part might have come from `prev`.
  let newTS := { newTS with logical := 0 }
  if newTS < rts.resolvedTS then throw .regression
  return ({ rts with resolvedTS := rts.resolvedTS.forward newTS }, rts.resolvedTS < newTS)

/-- `resolvedTimestamp.assertNoChange`. -/
def assertNoChange : Except Fatal ResolvedTimestamp := do
  let (rts', changed) ← rts.recompute
  if changed ∨ rts.resolvedTS ≠ rts'.resolvedTS then throw .unexpectedChange
  return rts'

/-- What follows a call that tells whether it may have moved the resolved timestamp. -/
def settle (moved : Bool) : Except Fatal (ResolvedTimestamp × Bool) :=
  if moved then rts.recompute
  else do
    let rts ← rts.assertNoChange
    return (rts, false)

/-- `resolvedTimestamp.Init`. -/
def initRTS : Except Fatal (ResolvedTimestamp × Bool) := do
  let intentQ ← rts.intentQ.setAllowNegRefCount false
  recompute { rts with init := true, intentQ }

/-- `resolvedTimestamp.ForwardClosedTS`. -/
def forwardClosedTS (newClosedTS : Timestamp) : Except Fatal (ResolvedTimestamp × Bool) :=
  settle { rts with closedTS := rts.closedTS.forward newClosedTS } (rts.closedTS < newClosedTS)

/-- `resolvedTimestamp.assertOpAboveRTS`; otherwise it only logs an error. -/
def assertOpAboveRTS (opTS : Timestamp) (fatal : Bool) : Except Fatal Unit :=
  if opTS ≤ rts.resolvedTS ∧ fatal then throw .opBelowResolved else return ()

/-- `DisableCommitIntentTimestampAssertion`. -/
structure Settings where
  disableCommitIntentTimestampAssertion : Bool := false
  deriving DecidableEq, Repr

variable (st : Settings)

/-- `resolvedTimestamp.consumeLogicalOp`. -/
def consumeLogicalOp : MVCCLogicalOp → Except Fatal (UnresolvedIntentQueue × Bool)
  | .writeValue ts => do
      rts.assertOpAboveRTS ts true
      return (rts.intentQ, false)
  | .deleteRange ts => do
      rts.assertOpAboveRTS ts true
      return (rts.intentQ, false)
  | .writeIntent txnID txnKey txnIsoLevel txnMinTS ts => do
      rts.assertOpAboveRTS ts true
      rts.intentQ.incRef txnID txnKey txnIsoLevel txnMinTS ts
  | .updateIntent txnID ts => rts.intentQ.updateTS txnID ts
  | .commitIntent txnID ts => do
      rts.assertOpAboveRTS ts (¬ st.disableCommitIntentTimestampAssertion)
      rts.intentQ.decrRef txnID ts
  | .abortIntent txnID => rts.intentQ.decrRef txnID {}
  | .abortTxn txnID =>
    -- Before the queue is initialized every decrement has to be balanced.
    if ¬ rts.init then return (rts.intentQ, false) else return rts.intentQ.del txnID
  | .unset => throw .unknownOp

/-- `resolvedTimestamp.ConsumeLogicalOp`. -/
def consume (op : MVCCLogicalOp) : Except Fatal (ResolvedTimestamp × Bool) := do
  let (intentQ, moved) ← rts.consumeLogicalOp st op
  settle { rts with intentQ } moved

end ResolvedTimestamp

end Cockroach.Rangefeed
