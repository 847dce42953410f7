import Cockroach.Lib.Outcome
import Cockroach.Util.Hlc

/-!
# Requester and supporter state (`requester_state.go`, `supporter_state.go`)

A store asks other stores for support and supports others in turn. Both sides
are updated in batches: an update collects its changes in an `inProgress` view,
writes them to disk and only then checks them in, so that readers see what is on
disk. A failed `assert` and a nil dereference are panics.

Epochs are integers. Maps are iterated in key order; Go iterates them in any order, which nothing
below depends on.
-/

namespace Cockroach.StoreLiveness

open Lib Hlc

/-- `slpb.StoreIdent`. -/
@[ext] structure StoreIdent where
  nodeID : Nat := 0
  storeID : Nat := 0
  deriving DecidableEq, Repr, Inhabited

instance : Ord StoreIdent := ⟨compareLex (compareOn (·.nodeID)) (compareOn (·.storeID))⟩

instance : Std.TransOrd StoreIdent :=
  inferInstanceAs (Std.TransCmp (compareLex (compareOn StoreIdent.nodeID)
    (compareOn StoreIdent.storeID)))

instance : Std.LawfulEqOrd StoreIdent where
  eq_of_compare := by
    intro a b h
    obtain ⟨h1, h2⟩ := compareLex_eq_eq.mp h
    exact StoreIdent.ext (compare_eq_iff_eq.mp h1) (compare_eq_iff_eq.mp h2)

@[simp] theorem StoreIdent.compare_eq {a b : StoreIdent} : compare a b = .eq ↔ a = b :=
  Std.LawfulEqCmp.compare_eq_iff_eq

/-- `slpb.MessageType`. -/
inductive MessageType
  | heartbeat
  | heartbeatResp
  deriving DecidableEq, Repr

/-- `slpb.Message`. -/
structure Message where
  type : MessageType
  src : StoreIdent
  dst : StoreIdent
  epoch : Int := 0
  expiration : Timestamp := {}
  deriving DecidableEq, Repr

/-- `slpb.RequesterMeta`. -/
structure RequesterMeta where
  maxEpoch : Int := 0
  maxRequested : Timestamp := {}
  deriving DecidableEq, Repr, Inhabited

/-- `slpb.SupporterMeta`. -/
structure SupporterMeta where
  maxWithdrawn : Timestamp := {}
  deriving DecidableEq, Repr, Inhabited

/-- `slpb.SupportState`. -/
structure SupportState where
  target : StoreIdent
  epoch : Int := 0
  expiration : Timestamp := {}
  deriving DecidableEq, Repr

/-- The places where the package panics. -/
inductive Panic
  /-- "max epoch regressed during update" -/
  | maxEpochRegressed
  /-- "max requested regressed during update" -/
  | maxRequestedRegressed
  /-- "max withdrawn regressed during update" -/
  | maxWithdrawnRegressed
  /-- "reading from requesterStateForUpdate.checkedIn.supportFrom while
  requesterStateForUpdate.inProgress.supportFrom is not empty" -/
  | supportFromInProgress
  /-- "reading from supporterStateForUpdate.checkedIn.supportFor while
  supporterStateForUpdate.inProgress.supportFor is not empty" -/
  | supportForInProgress
  /-- "the supporter epoch leads the requester epoch by more than 1" -/
  | epochLeads
  /-- "the supporter responded with an incremented epoch but non-zero timestamp" -/
  | nonZeroTimestamp
  /-- "support expiration regression across epochs" -/
  | expirationRegression
  /-- The nil entry of a store that is not in `checkedIn.supportFrom`. -/
  | nilEntry
  deriving DecidableEq, Repr

/-- `assert`. -/
def assert (condition : Prop) [Decidable condition] (msg : Panic) : Except Panic Unit :=
  if condition then return () else throw msg

theorem sat_assert {c : Prop} [Decidable c] {p : Panic} {E : Panic → Prop} {Q : Unit → Prop}
    (hE : ¬ c → E p) (hQ : c → Q ()) : Sat (assert c p) E Q := by
  unfold assert
  exact Sat.ite hQ hE

/-! ## Requesting support -/

/-- `requestedSupport`. -/
structure RequestedSupport where
  state : SupportState
  recentlyQueried : Bool := false
  deriving DecidableEq, Repr

/-- `requesterState`. -/
structure RequesterState where
  metadata : RequesterMeta := {}
  supportFrom : Std.ExtTreeMap StoreIdent RequestedSupport := ∅

namespace RequesterState

/-- `requesterStateHandler.addStore`. -/
def addStore (rs : RequesterState) (id : StoreIdent) : RequesterState :=
  if id ∈ rs.supportFrom then rs
  else
    let state : SupportState := { target := id, epoch := rs.metadata.maxEpoch }
    { rs with supportFrom := rs.supportFrom.insert id { state, recentlyQueried := true } }

/-- `requesterStateHandler.removeIdleStores`. -/
def removeIdleStores (rs : RequesterState) : RequesterState :=
  { rs with supportFrom := rs.supportFrom.filterMap fun _ r =>
      if r.recentlyQueried then some { r with recentlyQueried := false } else none }

/-- What `requesterStateHandler.getSupportFrom` leaves behind. -/
def queried (rs : RequesterState) (id : StoreIdent) : RequesterState :=
  { rs with supportFrom := rs.supportFrom.modify id fun r => { r with recentlyQueried := true } }

end RequesterState

/-- `requesterStateForUpdate`. -/
structure RequesterStateForUpdate where
  checkedIn : RequesterState
  inProgress : RequesterState := {}

namespace RequesterStateForUpdate

variable (rsfu : RequesterStateForUpdate)

/-- `requesterStateForUpdate.assertMeta`. -/
def assertMeta : Except Panic Unit := do
  assert (rsfu.checkedIn.metadata.maxEpoch ≤ rsfu.inProgress.metadata.maxEpoch) .maxEpochRegressed
  assert (rsfu.checkedIn.metadata.maxRequested ≤ rsfu.inProgress.metadata.maxRequested)
    .maxRequestedRegressed

/-- `requesterStateForUpdate.getMeta`. -/
def getMeta : Except Panic RequesterMeta := do
  if rsfu.inProgress.metadata ≠ {} then
    rsfu.assertMeta
    return rsfu.inProgress.metadata
  return rsfu.checkedIn.metadata

/-- `requesterStateForUpdate.getSupportFrom`. -/
def getSupportFrom (id : StoreIdent) : Option SupportState :=
  (rsfu.inProgress.supportFrom[id]?.or rsfu.checkedIn.supportFrom[id]?).map (·.state)

/-- `requesterStateForUpdate.write`: the meta to write to disk, if any. -/
def write : Except Panic (Option RequesterMeta) := do
  if rsfu.inProgress.metadata = {} then return none
  rsfu.assertMeta
  return some rsfu.inProgress.metadata

/-- One entry of the loop of `checkInUpdate`. -/
def checkInEntry (checkedIn : RequesterState) (id : StoreIdent) (r : RequestedSupport) :
    Except Panic RequesterState :=
  match checkedIn.supportFrom[id]? with
  | none => throw .nilEntry
  | some old =>
    return { checkedIn with
      supportFrom := checkedIn.supportFrom.insert id { old with state := r.state } }

/-- `requesterStateHandler.checkInUpdate`. -/
def checkInUpdate : Except Panic RequesterState := do
  if rsfu.inProgress.metadata = {} ∧ rsfu.inProgress.supportFrom.isEmpty then return rsfu.checkedIn
  let mut checkedIn := rsfu.checkedIn
  if rsfu.inProgress.metadata ≠ {} then
    rsfu.assertMeta
    checkedIn := { checkedIn with metadata := rsfu.inProgress.metadata }
  rsfu.inProgress.supportFrom.toList.foldlM (fun rs e => checkInEntry rs e.1 e.2) checkedIn

/-- `requesterStateForUpdate.updateMaxRequested`. -/
def updateMaxRequested (now : Timestamp) (interval : Nat) :
    Except Panic RequesterStateForUpdate := do
  let newMaxRequested := now.add interval 0
  let md ← rsfu.getMeta
  if md.maxRequested < newMaxRequested then
    return { rsfu with
      inProgress := { rsfu.inProgress with
        metadata := { md with maxRequested := md.maxRequested.forward newMaxRequested } } }
  return rsfu

/-- `requesterStateForUpdate.generateHeartbeats`. -/
def generateHeartbeats (src : StoreIdent) : Except Panic (List Message) := do
  let md ← rsfu.getMeta
  assert (rsfu.inProgress.supportFrom.isEmpty = true) .supportFromInProgress
  return rsfu.checkedIn.supportFrom.toList.map fun e =>
    { type := .heartbeat, src, dst := e.2.state.target, epoch := e.2.state.epoch,
      expiration := md.maxRequested }

/-- `requesterStateForUpdate.getHeartbeatsToSend`. -/
def getHeartbeatsToSend (src : StoreIdent) (now : Timestamp)
    (interval : Nat) : Except Panic (RequesterStateForUpdate × List Message) := do
  let rsfu ← rsfu.updateMaxRequested now interval
  let heartbeats ← rsfu.generateHeartbeats src
  return (rsfu, heartbeats)

/-- `handleHeartbeatResponse`: the core logic. -/
def handleResponse (rm : RequesterMeta) (ss : SupportState) (msg : Message) :
    Except Panic (RequesterMeta × SupportState) := do
  let rm := if rm.maxEpoch < msg.epoch then { rm with maxEpoch := msg.epoch } else rm
  if ss.epoch = msg.epoch then
    return (rm, { ss with expiration := ss.expiration.forward msg.expiration })
  else if ss.epoch < msg.epoch then
    assert (ss.epoch = msg.epoch - 1) .epochLeads
    assert (msg.expiration = {}) .nonZeroTimestamp
    return (rm, { ss with epoch := msg.epoch, expiration := msg.expiration })
  return (rm, ss)

/-- `requesterStateForUpdate.handleHeartbeatResponse`. -/
def handleHeartbeatResponse (msg : Message) : Except Panic RequesterStateForUpdate := do
  let md ← rsfu.getMeta
  let ss := (rsfu.getSupportFrom msg.src).getD { target := msg.src }
  let (metaNew, ssNew) ← handleResponse md ss msg
  let inProgress := rsfu.inProgress
  let inProgress := if md ≠ metaNew then { inProgress with metadata := metaNew } else inProgress
  let inProgress := if ss ≠ ssNew then
    { inProgress with supportFrom := inProgress.supportFrom.insert msg.src { state := ssNew } }
    else inProgress
  return { rsfu with inProgress }

/-- `requesterStateForUpdate.incrementMaxEpoch`. -/
def incrementMaxEpoch : Except Panic RequesterStateForUpdate := do
  let md ← rsfu.getMeta
  return { rsfu with
    inProgress := { rsfu.inProgress with metadata := { md with maxEpoch := md.maxEpoch + 1 } } }

end RequesterStateForUpdate

/-! ## Providing support -/

/-- `supporterState`. -/
structure SupporterState where
  metadata : SupporterMeta := {}
  supportFor : Std.ExtTreeMap StoreIdent SupportState := ∅

/-- `supporterStateForUpdate`. -/
structure SupporterStateForUpdate where
  checkedIn : SupporterState
  inProgress : SupporterState := {}

namespace SupporterStateForUpdate

variable (ssfu : SupporterStateForUpdate)

/-- `supporterStateForUpdate.assertMeta`. -/
def assertMeta : Except Panic Unit :=
  assert (ssfu.checkedIn.metadata.maxWithdrawn ≤ ssfu.inProgress.metadata.maxWithdrawn)
    .maxWithdrawnRegressed

/-- `supporterStateForUpdate.getMeta`. -/
def getMeta : Except Panic SupporterMeta := do
  if ssfu.inProgress.metadata ≠ {} then
    ssfu.assertMeta
    return ssfu.inProgress.metadata
  return ssfu.checkedIn.metadata

/-- `supporterStateForUpdate.getSupportFor`. -/
def getSupportFor (id : StoreIdent) : Option SupportState :=
  ssfu.inProgress.supportFor[id]?.or ssfu.checkedIn.supportFor[id]?

/-- `supporterStateForUpdate.write`: the meta to write to disk, if any, and the
support states. -/
def write : Except Panic (Option SupporterMeta × List SupportState) := do
  if ssfu.inProgress.metadata = {} ∧ ssfu.inProgress.supportFor.isEmpty then return (none, [])
  let states := ssfu.inProgress.supportFor.toList.map (·.2)
  if ssfu.inProgress.metadata ≠ {} then
    ssfu.assertMeta
    return (some ssfu.inProgress.metadata, states)
  return (none, states)

/-- `supporterStateHandler.checkInUpdate`. -/
def checkInUpdate : Except Panic SupporterState := do
  if ssfu.inProgress.metadata = {} ∧ ssfu.inProgress.supportFor.isEmpty then return ssfu.checkedIn
  let supportFor := ssfu.checkedIn.supportFor ∪ ssfu.inProgress.supportFor
  if ssfu.inProgress.metadata ≠ {} then
    ssfu.assertMeta
    return { metadata := ssfu.inProgress.metadata, supportFor }
  return { ssfu.checkedIn with supportFor }

/-- `handleHeartbeat`: the core logic. -/
def handleBeat (ss : SupportState) (msg : Message) : Except Panic SupportState := do
  if ss.epoch = msg.epoch then
    return { ss with expiration := ss.expiration.forward msg.expiration }
  else if ss.epoch < msg.epoch then
    assert (ss.expiration < msg.expiration) .expirationRegression
    return { ss with epoch := msg.epoch, expiration := msg.expiration }
  return ss

/-- `supporterStateForUpdate.handleHeartbeat`. -/
def handleHeartbeat (msg : Message) : Except Panic (SupporterStateForUpdate × Message) := do
  let ss := (ssfu.getSupportFor msg.src).getD { target := msg.src }
  let ssNew ← handleBeat ss msg
  let inProgress := if ss ≠ ssNew then
    { ssfu.inProgress with supportFor := ssfu.inProgress.supportFor.insert msg.src ssNew }
    else ssfu.inProgress
  return ({ ssfu with inProgress },
    { type := .heartbeatResp, src := msg.dst, dst := msg.src, epoch := ssNew.epoch,
      expiration := ssNew.expiration })

/-- `maybeWithdrawSupport`. -/
def maybeWithdrawSupport (ss : SupportState) (now : Timestamp) : SupportState :=
  if ss.expiration.isEmpty = false ∧ ss.expiration ≤ now then
    { ss with epoch := ss.epoch + 1, expiration := {} }
  else ss

/-- One entry of the loop of `withdrawSupport`. -/
def withdrawEntry (now : Timestamp) (ssfu : SupporterStateForUpdate) (id : StoreIdent)
    (ss : SupportState) : Except Panic SupporterStateForUpdate := do
  let ssNew := maybeWithdrawSupport ss now
  if ss ≠ ssNew then
    let ssfu := { ssfu with inProgress := { ssfu.inProgress with
      supportFor := ssfu.inProgress.supportFor.insert id ssNew } }
    let md ← ssfu.getMeta
    if md.maxWithdrawn < now then
      return { ssfu with inProgress := { ssfu.inProgress with
        metadata := { maxWithdrawn := md.maxWithdrawn.forward now } } }
    return ssfu
  return ssfu

/-- `supporterStateForUpdate.withdrawSupport`. -/
def withdrawSupport (now : Timestamp) : Except Panic SupporterStateForUpdate := do
  assert (ssfu.inProgress.supportFor.isEmpty = true) .supportForInProgress
  ssfu.checkedIn.supportFor.toList.foldlM (fun ssfu e => withdrawEntry now ssfu e.1 e.2) ssfu

end SupporterStateForUpdate

end Cockroach.StoreLiveness
