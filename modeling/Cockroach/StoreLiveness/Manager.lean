import Cockroach.StoreLiveness.State

/-!
# Support managers and their stores (`support_manager.go`, `persist.go`)

A manager does one thing at a time: it collects an update, commits it to disk,
checks it in and sends messages. Between any two of these its store may crash,
and readers may ask for support, so each is a step of its own. Messages that were
handled in one batch are committed together; the writes of a withdrawal go to
the engine one by one.

Engine writes succeed and survive crashes. Nothing that was sent is taken back,
so that delivering from `sent` covers loss, delay, duplication and reordering; the
receive queue of a manager is part of what was sent to it.
-/

namespace Cockroach.StoreLiveness

open Lib Hlc

/-- The durations of `Options` that matter beside the tickers. -/
structure Options where
  livenessInterval : Nat
  supportWithdrawalGracePeriod : Nat
  deriving DecidableEq, Repr

/-- Support that a store has withdrawn: from whom, for which epoch, and at which
reading of its clock. -/
structure Withdrawal where
  target : StoreIdent
  epoch : Int
  now : Timestamp
  deriving DecidableEq, Repr

/-- What is on disk. -/
structure Disk where
  requesterMeta : RequesterMeta := {}
  supporterMeta : SupporterMeta := {}
  supportFor : Std.ExtTreeMap StoreIdent SupportState := ∅
  /-- The withdrawals that have reached the disk so far; nothing reads them. -/
  withdrawn : List Withdrawal := []

/-- One write. -/
inductive Write
  | requesterMeta (rm : RequesterMeta)
  | supporterMeta (sm : SupporterMeta)
  | supportFor (ss : SupportState)
  deriving DecidableEq, Repr

/-- Writes that reach the disk together, with the clock reading of the withdrawal
that they belong to. -/
structure Commit where
  writes : List Write := []
  withdrawal : Option Timestamp := none
  deriving DecidableEq, Repr

namespace Disk

/-- `writeRequesterMeta`, `writeSupporterMeta` and `writeSupportForState`. -/
def write (d : Disk) : Write → Disk
  | .requesterMeta rm => { d with requesterMeta := rm }
  | .supporterMeta sm => { d with supporterMeta := sm }
  | .supportFor ss =>
    { d with supportFor := d.supportFor.insert ss.target { ss with target := {} } }

/-- The withdrawals among the writes: each gives up the epoch before the new one. -/
def withdrawals (c : Commit) : List Withdrawal :=
  match c.withdrawal with
  | none => []
  | some now => c.writes.filterMap fun
      | .supportFor ss => some { target := ss.target, epoch := ss.epoch - 1, now }
      | _ => none

def commit (d : Disk) (c : Commit) : Disk :=
  let d' := c.writes.foldl write d
  { d' with withdrawn := withdrawals c ++ d.withdrawn }

/-- `supporterStateHandler.read`, with `readSupportForState`. -/
def readSupporter (d : Disk) : SupporterState where
  metadata := d.supporterMeta
  supportFor := d.supportFor.map fun id ss => { ss with target := id }

/-- `requesterStateHandler.read`. -/
def readRequester (d : Disk) : RequesterState where
  metadata := d.requesterMeta

end Disk

/-- What the main goroutine has still to do: commits, what to check in, and what
to send. -/
structure Pending where
  commits : List Commit := []
  requester : RequesterState := {}
  supporter : SupporterState := {}
  out : List Message := []

/-- No update is in progress. -/
def Pending.idle (p : Pending) : Bool :=
  p.commits.isEmpty && p.requester.metadata == {} && p.requester.supportFrom.isEmpty &&
    p.supporter.metadata == {} && p.supporter.supportFor.isEmpty && p.out.isEmpty

/-- `SupportManager`. -/
structure SupportManager where
  storeID : StoreIdent
  options : Options
  clock : Clock
  storesToAdd : List StoreIdent := []
  minWithdrawalTS : Timestamp := {}
  requester : RequesterState := {}
  supporter : SupporterState := {}
  pending : Pending := {}

namespace SupportManager

variable (sm : SupportManager)

/-- `SupportManager.SupportFor`. -/
def supportFor (id : StoreIdent) : Int × Bool :=
  match sm.supporter.supportFor[id]? with
  | none => (0, false)
  | some ss => if ss.expiration.isEmpty then (0, false) else (ss.epoch, true)

/-- What `SupportManager.SupportFrom` returns. -/
def supportFrom (id : StoreIdent) : Int × Timestamp × Bool :=
  match sm.requester.supportFrom[id]? with
  | none => (0, {}, false)
  | some rs => if rs.state.expiration.isEmpty then (0, {}, false)
      else (rs.state.epoch, rs.state.expiration, true)

/-- What a call of `SupportManager.SupportFrom` leaves behind. -/
def querySupportFrom (id : StoreIdent) : SupportManager :=
  if id ∈ sm.requester.supportFrom then { sm with requester := sm.requester.queried id }
  else { sm with storesToAdd := sm.storesToAdd.insert id }

/-- `checkOutUpdate` of the two handlers. -/
def rsfu : RequesterStateForUpdate := ⟨sm.requester, sm.pending.requester⟩

def ssfu : SupporterStateForUpdate := ⟨sm.supporter, sm.pending.supporter⟩

/-- `SupportManager.maybeAddStores`. -/
def maybeAddStores : SupportManager :=
  { sm with requester := sm.storesToAdd.foldl RequesterState.addStore sm.requester
            storesToAdd := [] }

/-- The commit of a changed requester meta. -/
def metaCommits (w : Option RequesterMeta) : List Commit :=
  w.toList.map fun rm => { writes := [.requesterMeta rm] }

/-- `SupportManager.sendHeartbeats`, up to the commit. -/
def sendHeartbeats (physicalClock : Nat) : Except Panic SupportManager := do
  let clock := sm.clock.now physicalClock
  let (rsfu, heartbeats) ← sm.rsfu.getHeartbeatsToSend sm.storeID clock.timestamp
    sm.options.livenessInterval
  let w ← rsfu.write
  return { sm with
    clock
    pending := { sm.pending with
      commits := metaCommits w
      requester := rsfu.inProgress
      out := heartbeats } }

/-- `SupportManager.withdrawSupport`, up to the first write. -/
def withdrawSupport (physicalClock : Nat) : Except Panic SupportManager := do
  let clock := sm.clock.now physicalClock
  let now := clock.timestamp
  if now < sm.minWithdrawalTS then return { sm with clock }
  let ssfu ← sm.ssfu.withdrawSupport now
  let (m, states) ← ssfu.write
  return { sm with
    clock
    pending := { sm.pending with
      commits := m.toList.map (fun m => { writes := [.supporterMeta m] }) ++
        states.map fun ss => { writes := [.supportFor ss], withdrawal := some now }
      supporter := ssfu.inProgress } }

/-- One message of the loop of `handleMessages`. -/
def handleMessage (u : RequesterStateForUpdate × SupporterStateForUpdate × List Message)
    (msg : Message) :
    Except Panic (RequesterStateForUpdate × SupporterStateForUpdate × List Message) :=
  match msg.type with
  | .heartbeat => do
      let (ssfu, response) ← u.2.1.handleHeartbeat msg
      return (u.1, ssfu, u.2.2 ++ [response])
  | .heartbeatResp => do
      let rsfu ← u.1.handleHeartbeatResponse msg
      return (rsfu, u.2)

/-- `SupportManager.handleMessages`, up to the commit of the batch. -/
def handleMessages (msgs : List Message) : Except Panic SupportManager := do
  let (rsfu, ssfu, responses) ← msgs.foldlM handleMessage (sm.rsfu, sm.ssfu, [])
  let w ← rsfu.write
  let (m, states) ← ssfu.write
  let writes := w.toList.map Write.requesterMeta ++ m.toList.map Write.supporterMeta ++
    states.map Write.supportFor
  return { sm with
    pending :=
      { commits := [{ writes }]
        requester := rsfu.inProgress
        supporter := ssfu.inProgress
        out := responses } }

/-- `SupportManager.onRestart` over what is on disk, up to the commit of the new
epoch; `none` when the clock is refused or the wait has not ended. -/
def onRestart (id : StoreIdent) (options : Options) (maxOffset : Nat) (d : Disk)
    (physicalClock : Nat) (sleep : List Nat) (physicalClock' : Nat) :
    Except Panic (Option SupportManager) := do
  let supporter := d.readSupporter
  let requester := d.readRequester
  let clock : Clock := { maxOffset }
  match clock.updateAndCheckMaxOffset physicalClock supporter.metadata.maxWithdrawn with
  | none => return none
  | some clock =>
    match clock.sleepUntil requester.metadata.maxRequested sleep with
    | none => return none
    | some clock =>
      let clock := clock.now physicalClock'
      let rsfu : RequesterStateForUpdate := { checkedIn := requester }
      let rsfu ← rsfu.incrementMaxEpoch
      let w ← rsfu.write
      return some {
        storeID := id
        options
        clock
        minWithdrawalTS := clock.timestamp.add options.supportWithdrawalGracePeriod 0
        requester
        supporter
        pending := { commits := metaCommits w, requester := rsfu.inProgress } }

end SupportManager

/-- A store: its disk, and its manager while the process runs. -/
structure Store where
  disk : Disk := {}
  manager : Option SupportManager := none

namespace Store

/-- What happens at a store. -/
inductive Act
  /-- The process starts, with these physical clock readings. -/
  | start (options : Options) (maxOffset : Nat) (physicalClock : Nat) (sleep : List Nat)
      (physicalClock' : Nat)
  | crash
  /-- A call of `SupportFrom`. -/
  | querySupportFrom (id : StoreIdent)
  /-- Something else on the node reads its clock. -/
  | readClock (physicalClock : Nat)
  /-- Something else on the node forwards its clock. -/
  | updateClock (rt : Timestamp)
  /-- The heartbeat ticker; `enabled` is `SupportFromEnabled`. -/
  | heartbeat (enabled : Bool) (physicalClock : Nat)
  /-- The support expiry ticker. -/
  | withdraw (physicalClock : Nat)
  /-- The idle ticker. -/
  | removeIdle
  /-- The receive queue is drained. -/
  | receive (msgs : List Message)
  /-- The main goroutine goes on with the update in progress. -/
  | advance
  deriving DecidableEq, Repr

/-- The next commit, check-in or sending of an update in progress. -/
def advance (d : Disk) (sm : SupportManager) :
    Except Panic (Disk × SupportManager × List Message) := do
  let p := sm.pending
  match p.commits with
  | c :: commits => return (d.commit c, { sm with pending := { p with commits } }, [])
  | [] =>
    if ¬ (p.requester.metadata = {} ∧ p.requester.supportFrom.isEmpty) then
      let requester ← sm.rsfu.checkInUpdate
      return (d, { sm with requester, pending := { p with requester := {} } }, [])
    if ¬ (p.supporter.metadata = {} ∧ p.supporter.supportFor.isEmpty) then
      let supporter ← sm.ssfu.checkInUpdate
      return (d, { sm with supporter, pending := { p with supporter := {} } }, [])
    return (d, { sm with pending := {} }, p.out)

/-- What the main goroutine does when no update is in progress. -/
def main (sm : SupportManager) : Act → Except Panic SupportManager
  | .heartbeat enabled physicalClock =>
    let sm := sm.maybeAddStores
    if enabled then sm.sendHeartbeats physicalClock else return sm
  | .withdraw physicalClock => sm.withdrawSupport physicalClock
  | .removeIdle => return { sm with requester := sm.requester.removeIdleStores }
  | .receive msgs => sm.handleMessages msgs
  | _ => return sm

/-- What other goroutines do. -/
def concurrent (sm : SupportManager) : Act → SupportManager
  | .querySupportFrom id => sm.querySupportFrom id
  | .readClock physicalClock => { sm with clock := sm.clock.now physicalClock }
  | .updateClock rt => { sm with clock := sm.clock.update rt }
  | _ => sm

/-- An action at the store `id`, and the messages it sends. -/
def act (id : StoreIdent) (s : Store) (a : Act) : Except Panic (Store × List Message) := do
  match s.manager with
  | none =>
    match a with
    | .start options maxOffset physicalClock sleep physicalClock' =>
      let manager ← SupportManager.onRestart id options maxOffset s.disk physicalClock sleep
        physicalClock'
      return ({ s with manager }, [])
    | _ => return (s, [])
  | some sm =>
    match a with
    | .crash => return ({ s with manager := none }, [])
    | .advance =>
      let (disk, sm, out) ← advance s.disk sm
      return ({ disk, manager := some sm }, out)
    | .heartbeat _ _ | .withdraw _ | .removeIdle | .receive _ =>
      if sm.pending.idle then
        let sm ← main sm a
        return ({ s with manager := some sm }, [])
      else return (s, [])
    | _ => return ({ s with manager := some (concurrent sm a) }, [])

end Store

/-- All stores, and every message that was sent. -/
structure Cluster where
  store : StoreIdent → Store := fun _ => {}
  sent : List Message := []

namespace Cluster

/-- A store receives only what was sent to it. -/
def Legal (c : Cluster) (id : StoreIdent) : Store.Act → Prop
  | .receive msgs => ∀ m ∈ msgs, m ∈ c.sent ∧ m.dst = id
  | _ => True

instance (c : Cluster) (id : StoreIdent) : ∀ a, Decidable (c.Legal id a)
  | .receive msgs => inferInstanceAs (Decidable (∀ m ∈ msgs, m ∈ c.sent ∧ m.dst = id))
  | .start .. | .crash | .querySupportFrom _ | .readClock _ | .updateClock _ | .heartbeat ..
  | .withdraw _ | .removeIdle | .advance => isTrue trivial

/-- The cluster after an action of the store `id`. -/
def after (c : Cluster) (id : StoreIdent) (s : Store) (out : List Message) : Cluster where
  store := Function.update c.store id s
  sent := out ++ c.sent

/-- One step, by an action that meets `C`. -/
inductive Step (C : Cluster → StoreIdent → Store.Act → Prop) : Cluster → Cluster → Prop
  | act {c : Cluster} {id : StoreIdent} {a : Store.Act} {s : Store} {out : List Message}
      (hl : c.Legal id a) (hC : C c id a) (ha : (c.store id).act id a = .ok (s, out)) :
      Step C c (c.after id s out)

/-- A run of any length. -/
abbrev Run (C : Cluster → StoreIdent → Store.Act → Prop) : Cluster → Cluster → Prop :=
  Relation.ReflTransGen (Step C)

/-- Any action will do. -/
abbrev Any : Cluster → StoreIdent → Store.Act → Prop := fun _ _ _ => True

end Cluster

end Cockroach.StoreLiveness
