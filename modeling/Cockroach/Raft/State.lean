import Cockroach.Raft.Confchange
import Cockroach.Raft.Log

/-!
# The raft state machine: state and outgoing messages (`raft.go`)

The record `raft` with the functions that queue messages. A function of the
source that updates its receiver returns the updated record here. `step` and
`tick` of the source are function pointers that the role determines, so they are
not fields.

What the source reads from its surroundings during a call is in `Env`: the store
liveness fabric, the active cluster version, and the random number of the
election timeout. A call resets that timeout possibly more than once but only the
last value is ever read, so one number a call is enough.
-/

namespace Cockroach.Raft

/-- `StateType`. -/
inductive StateType
  | follower
  | candidate
  | leader
  | preCandidate
  deriving DecidableEq, Repr, Inhabited

/-- The surroundings of a call. -/
structure Env where
  /-- `StoreLiveness.SupportFor`. -/
  supportFor : PeerID → Epoch × Bool := fun _ => (0, false)
  /-- `StoreLiveness.SupportFromEnabled`. -/
  supportFromEnabled : Bool := false
  /-- `advanceCommitViaMsgAppOnly`: whether the cluster version is active. -/
  advanceCommitViaMsgAppOnly : Bool := false
  /-- `globalRand.Intn(electionTimeout)`. -/
  rand : Nat := 0

/-- The errors `Step` returns. -/
inductive StepErr
  /-- "raft proposal dropped" -/
  | proposalDropped
  deriving DecidableEq, Repr

/-- `raft`. -/
structure RaftNode where
  id : PeerID
  term : Nat := 0
  vote : PeerID := None
  raftLog : RaftLog := {}
  maxMsgSize : Nat := noLimit
  maxUncommittedSize : Nat := noLimit
  config : Config := {}
  /-- The map of the `ProgressTracker`. -/
  trk : ProgressMap := ∅
  /-- The votes of the `ElectionTracker`. -/
  votes : Votes := ∅
  state : StateType := .follower
  isLearner : Bool := false
  msgs : List Message := []
  msgsAfterAppend : List Message := []
  lead : PeerID := None
  leadEpoch : Epoch := 0
  leadTransferee : PeerID := None
  pendingConfIndex : Nat := 0
  disableConfChangeValidation : Bool := false
  uncommittedSize : Nat := 0
  electionElapsed : Nat := 0
  heartbeatElapsed : Nat := 0
  maxInflight : Nat := 0
  maxInflightBytes : Nat := 0
  checkQuorum : Bool := false
  preVote : Bool := false
  heartbeatTimeout : Nat := 0
  electionTimeout : Nat := 0
  randomizedElectionTimeout : Nat := 0
  disableProposalForwarding : Bool := false
  stepDownOnRemoval : Bool := false

namespace RaftNode

-- the environment and the receiver
variable (env : Env) (r : RaftNode)

/-- `raft.hardState`. -/
def hardState : HardState where
  term := r.term
  vote := r.vote
  commit := r.raftLog.committed
  lead := r.lead
  leadEpoch := r.leadEpoch

/-- A progress is updated in place. -/
def setProgress (id : PeerID) (pr : Progress) : RaftNode :=
  { r with trk := r.trk.insert id pr }

/-- The term part of `send`: campaign messages come with their term, all others
but proposals are given the current one. -/
def attachTerm (m : Message) : Except Panic Message :=
  match m.type with
  | .vote | .voteResp | .preVote | .preVoteResp => do
      assertTrue (m.term ≠ 0) (.sendWithoutTerm m.type)
      return m
  | .prop => do
      assertTrue (m.term = 0) (.sendWithTerm m.type m.term)
      return m
  | _ => do
      assertTrue (m.term = 0) (.sendWithTerm m.type m.term)
      return { m with term := r.term }

/-- The responses that wait until the state they depend on is durable. -/
def sentAfterAppend : MessageType → Bool
  | .appResp | .voteResp | .preVoteResp | .fortifyLeaderResp => true
  | _ => false

/-- `raft.send`. -/
def send (m : Message) : Except Panic RaftNode := do
  let m ← r.attachTerm (if m.src = None then { m with src := r.id } else m)
  if sentAfterAppend m.type then
    return { r with msgsAfterAppend := r.msgsAfterAppend ++ [m] }
  assertTrue (m.dst ≠ r.id) (.sendToSelf m.type)
  return { r with msgs := r.msgs ++ [m] }

/-- `raft.supportingFortifiedLeader`. -/
def supportingFortifiedLeader : Except Panic Bool := do
  if r.leadEpoch = 0 then return false
  assertTrue (r.lead ≠ None) (.fortify .leadEpochWithoutLead)
  let (epoch, live) := env.supportFor r.lead
  assertTrue (epoch ≥ r.leadEpoch) (.fortify .epochRegressed)
  return live && epoch == r.leadEpoch

/-- `raft.deFortify`. The last disjunct is only evaluated when the others fail. -/
def deFortify (src : PeerID) (term : Nat) : Except Panic RaftNode := do
  if term > r.term ∨ term = r.term ∧ src = r.lead then
    return { r with leadEpoch := 0 }
  assertTrue (term = r.term ∧ src = r.id) (.fortify .deFortify)
  let supporting ← r.supportingFortifiedLeader env
  assertTrue (supporting = false) (.fortify .deFortify)
  return { r with leadEpoch := 0 }

/-- `raft.maybeSendSnapshot`. -/
def maybeSendSnapshot (dst : PeerID) (pr : Progress) : Except Panic (Bool × RaftNode) := do
  if !pr.recentActive then return (false, r)
  let snapshot := r.raftLog.snapshot
  assertTrue (isEmptySnap snapshot = false) .emptySnapshot
  let r := r.setProgress dst (pr.becomeSnapshot snapshot.metadata.index)
  let r ← r.send { dst, type := .snap, snapshot := some snapshot }
  return (true, r)

/-- `raft.sendHeartbeat`. -/
def sendHeartbeat (dst : PeerID) : Except Panic RaftNode := do
  match r.trk[dst]? with
  | none => throw .nilProgress
  | some pr =>
    -- The commit index never runs ahead of what the follower is known to match.
    let commit :=
      if env.advanceCommitViaMsgAppOnly then 0 else min pr.matchIdx r.raftLog.committed
    let r ← r.send { dst, type := .heartbeat, commit, matchIdx := pr.matchIdx }
    return r.setProgress dst (pr.maybeUpdateSentCommit commit)

/-- `raft.sendFortify`. -/
def sendFortify (dst : PeerID) : Except Panic RaftNode := do
  if !env.supportFromEnabled then return r
  if dst = r.id then
    let (epoch, live) := env.supportFor r.lead
    return if live then { r with leadEpoch := epoch } else r
  r.send { dst, type := .fortifyLeader }

/-- `ProgressTracker.Visit` with a callback that updates the receiver: peers in
increasing order. -/
def visit (f : RaftNode → PeerID → Except Panic RaftNode) : Except Panic RaftNode :=
  r.trk.keys.foldlM f r

/-- `raft.bcastHeartbeat`. -/
def bcastHeartbeat : Except Panic RaftNode :=
  r.visit fun r' id => if id = r.id then pure r' else r'.sendHeartbeat env id

/-- `raft.bcastFortify`. -/
def bcastFortify : Except Panic RaftNode := do
  assertTrue (r.state = .leader) (.fortify .bcastFortifyNotLeader)
  r.visit fun r' id => r'.sendFortify env id

section Appends

variable [Codec] (env : Env) (r : RaftNode)

/-- The entries that `maybeSendAppend` attaches. -/
def entriesToSend (pr : Progress) : Except Panic (Except StorageErr (List Entry)) :=
  if pr.canSendEntries r.raftLog.lastIndex then r.raftLog.entries pr.next r.maxMsgSize
  else return .ok []

/-- `raft.maybeSendAppend`. -/
def maybeSendAppend (dst : PeerID) : Except Panic (Bool × RaftNode) := do
  match r.trk[dst]? with
  | none => throw .nilProgress
  | some pr =>
    let last := r.raftLog.lastIndex
    let commit := r.raftLog.committed
    if !pr.shouldSendMsgApp last commit env.advanceCommitViaMsgAppOnly then return (false, r)
    let prevIndex := pr.next - 1
    match r.raftLog.term prevIndex with
    | .error _ =>
      -- The log was truncated at or beyond `next`.
      r.maybeSendSnapshot dst pr
    | .ok prevTerm =>
      match ← r.entriesToSend pr with
      | .error _ => r.maybeSendSnapshot dst pr
      | .ok entries =>
        let r ← r.send { dst, type := .app, index := prevIndex, logTerm := prevTerm,
                         entries, commit, matchIdx := pr.matchIdx }
        let pr ← pr.sentEntries entries.length (payloadsSize entries)
        return (true, r.setProgress dst (pr.maybeUpdateSentCommit commit))

/-- `raft.bcastAppend`. -/
def bcastAppend : Except Panic RaftNode :=
  r.visit fun r' id =>
    if id = r.id then pure r' else do return (← r'.maybeSendAppend env id).2

/-- `for r.maybeSendAppend(dst) {}`, for at most `fuel` rounds. -/
def sendAppends (env : Env) : Nat → RaftNode → PeerID → Except Panic RaftNode
  | 0, _, _ => throw .sendLoop
  | fuel + 1, r, dst => do
      let (sent, r) ← r.maybeSendAppend env dst
      if sent then sendAppends env fuel r dst else return r

end Appends

end RaftNode

end Cockroach.Raft
