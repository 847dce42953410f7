import Cockroach.Rangefeed.IntentQueue

/-!
# A range and its feed

The intents of a range change by the operations of their transactions, and the feed
consumes these operations in order. Meanwhile closed timestamps are forwarded, and the
intents of a snapshot are delivered, each as the operation that wrote it; when all are
delivered the resolved timestamp is initialized.

Nothing is asked of the order of a transaction's timestamps but that it commits at or
above all that it has had on the range.
-/

namespace Cockroach.Rangefeed

open Lib Hlc

/-- An intent on the range. -/
structure Intent where
  key : List UInt8
  txnID : UUID
  txnKey : List UInt8 := []
  txnIsoLevel : Level := .serializable
  txnMinTimestamp : Timestamp := {}
  timestamp : Timestamp
  deriving DecidableEq, Repr

/-- The operation that writes an intent. -/
def Intent.writeOp (i : Intent) : MVCCLogicalOp :=
  .writeIntent i.txnID i.txnKey i.txnIsoLevel i.txnMinTimestamp i.timestamp

/-- How many intents a transaction has. -/
def count (l : List Intent) (id : UUID) : Int := l.countP fun i => i.txnID = id

/-- A range and its feed. -/
structure Feed where
  rts : ResolvedTimestamp := {}
  intents : List Intent := []
  /-- The largest timestamp that a transaction has had on the range. -/
  reached : UUID → Timestamp := fun _ => {}
  aborted : List UUID := []
  /-- The intents at the start of the stream. -/
  start : List Intent := []
  /-- The intents of the snapshot, once it is taken. -/
  taken : Option (List Intent) := none
  /-- Those that are still to be delivered. -/
  left : List Intent := []

/-- What happens to a range and its feed. -/
inductive Event
  | writeValue (ts : Timestamp)
  | deleteRange (ts : Timestamp)
  | writeIntent (i : Intent)
  | updateIntent (i : Intent) (ts : Timestamp)
  | commitIntent (i : Intent) (ts : Timestamp)
  | abortIntent (i : Intent)
  | abortTxn (id : UUID)
  | forwardClosedTS (ts : Timestamp)
  /-- The snapshot of the initial scan is taken. -/
  | snapshot
  /-- The initial scan delivers one of its intents. -/
  | deliver (i : Intent)
  | init
  deriving DecidableEq, Repr

/-- The timestamp of a value that an event publishes. -/
def Event.published : Event → Option Timestamp
  | .writeValue ts => some ts
  | .deleteRange ts => some ts
  | .commitIntent _ ts => some ts
  | _ => none

namespace Feed

/-- What can happen. Aborted transactions go on writing, moving and aborting intents. -/
def Legal (f : Feed) : Event → Prop
  | .writeValue ts => f.rts.closedTS < ts
  | .deleteRange ts => f.rts.closedTS < ts
  | .writeIntent i => f.rts.closedTS < i.timestamp ∧ ∀ j ∈ f.intents, j.key ≠ i.key
  | .updateIntent i ts => i ∈ f.intents ∧ i.timestamp ≤ ts
  | .commitIntent i ts => i ∈ f.intents ∧ i.txnID ∉ f.aborted ∧ f.reached i.txnID ≤ ts
  | .abortIntent i => i ∈ f.intents
  | .abortTxn _ => True
  | .forwardClosedTS _ => True
  | .snapshot => f.taken = none
  | .deliver i => i ∈ f.left
  | .init => f.taken.isSome ∧ f.left = [] ∧ f.rts.init = false

instance (f : Feed) : ∀ e, Decidable (f.Legal e)
  | .writeValue ts => inferInstanceAs (Decidable (f.rts.closedTS < ts))
  | .deleteRange ts => inferInstanceAs (Decidable (f.rts.closedTS < ts))
  | .writeIntent i => inferInstanceAs
      (Decidable (f.rts.closedTS < i.timestamp ∧ ∀ j ∈ f.intents, j.key ≠ i.key))
  | .updateIntent i ts => inferInstanceAs (Decidable (i ∈ f.intents ∧ i.timestamp ≤ ts))
  | .commitIntent i ts => inferInstanceAs
      (Decidable (i ∈ f.intents ∧ i.txnID ∉ f.aborted ∧ f.reached i.txnID ≤ ts))
  | .abortIntent i => inferInstanceAs (Decidable (i ∈ f.intents))
  | .abortTxn _ => isTrue trivial
  | .forwardClosedTS _ => isTrue trivial
  | .snapshot => inferInstanceAs (Decidable (f.taken = none))
  | .deliver i => inferInstanceAs (Decidable (i ∈ f.left))
  | .init => inferInstanceAs (Decidable (f.taken.isSome ∧ f.left = [] ∧ f.rts.init = false))

variable (st : ResolvedTimestamp.Settings)

/-- The transaction of `id` has had the timestamp `ts`. -/
def reach (f : Feed) (id : UUID) (ts : Timestamp) : UUID → Timestamp :=
  Function.update f.reached id (max (f.reached id) ts)

/-- One event, with what the feed makes of it. -/
def step (f : Feed) : Event → Except Fatal Feed
  | .writeValue ts => do
      let (rts, _) ← f.rts.consume st (.writeValue ts)
      return { f with rts }
  | .deleteRange ts => do
      let (rts, _) ← f.rts.consume st (.deleteRange ts)
      return { f with rts }
  | .writeIntent i => do
      let (rts, _) ← f.rts.consume st i.writeOp
      return { f with rts, intents := i :: f.intents, reached := f.reach i.txnID i.timestamp }
  | .updateIntent i ts => do
      let (rts, _) ← f.rts.consume st (.updateIntent i.txnID ts)
      return { f with rts, intents := { i with timestamp := ts } :: f.intents.erase i,
                      reached := f.reach i.txnID ts }
  | .commitIntent i ts => do
      let (rts, _) ← f.rts.consume st (.commitIntent i.txnID ts)
      return { f with rts, intents := f.intents.erase i, reached := f.reach i.txnID ts }
  | .abortIntent i => do
      let (rts, _) ← f.rts.consume st (.abortIntent i.txnID)
      return { f with rts, intents := f.intents.erase i }
  | .abortTxn id => do
      let (rts, _) ← f.rts.consume st (.abortTxn id)
      return { f with rts, aborted := id :: f.aborted }
  | .forwardClosedTS ts => do
      let (rts, _) ← f.rts.forwardClosedTS ts
      return { f with rts }
  | .snapshot => return { f with taken := some f.intents, left := f.intents }
  | .deliver i => do
      let (rts, _) ← f.rts.consume st i.writeOp
      return { f with rts, left := f.left.erase i }
  | .init => do
      let (rts, _) ← f.rts.initRTS
      return { f with rts }

/-- The start of a stream, over any intents that are there. -/
structure IsStart (f : Feed) : Prop where
  rts : f.rts = {}
  start : f.start = f.intents
  taken : f.taken = none
  left : f.left = []
  intents : ∀ i ∈ f.intents, {} < i.timestamp ∧ i.timestamp ≤ f.reached i.txnID

/-- The snapshot is taken when no transaction has fewer intents than at the start of
the stream. -/
def Covers (f : Feed) (e : Event) : Prop :=
  e = .snapshot → ∀ i ∈ f.start, count f.start i.txnID ≤ count f.intents i.txnID

instance (f : Feed) (e : Event) : Decidable (f.Covers e) :=
  inferInstanceAs (Decidable (e = .snapshot →
    ∀ i ∈ f.start, count f.start i.txnID ≤ count f.intents i.txnID))

/-- One event that meets `C`. -/
inductive Step (C : Feed → Event → Prop) : Feed → Feed → Prop
  | event {f f' : Feed} {e : Event} (hl : f.Legal e) (hC : C f e) (he : f.step st e = .ok f') :
      Step C f f'

/-- A run of any length. -/
abbrev Run (C : Feed → Event → Prop) : Feed → Feed → Prop := Relation.ReflTransGen (Step st C)

end Feed

end Cockroach.Rangefeed
