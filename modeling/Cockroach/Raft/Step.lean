import Cockroach.Raft.Handlers

/-!
# The raft state machine: messages, ticks and start-up (`raft.go`)

`Step` with the three step functions it dispatches to, the ticks, configuration
changes, and `newRaft`.
-/

namespace Cockroach.Raft

/-- `raft.Config`, without the storage. -/
structure Settings where
  id : PeerID
  electionTick : Nat := 0
  heartbeatTick : Nat := 0
  applied : Nat := 0
  maxSizePerMsg : Nat := 0
  maxCommittedSizePerReady : Nat := 0
  maxUncommittedEntriesSize : Nat := 0
  maxInflightMsgs : Nat := 0
  maxInflightBytes : Nat := 0
  checkQuorum : Bool := false
  preVote : Bool := false
  disableProposalForwarding : Bool := false
  disableConfChangeValidation : Bool := false
  stepDownOnRemoval : Bool := false
  deriving DecidableEq, Repr

/-- `Config.validate`, with the defaults it fills in. -/
def Settings.validate (c : Settings) : Except Panic Settings := do
  assertTrue (c.id ≠ None ∧ isLocalMsgTarget c.id = false) .invalidConfig
  assertTrue (c.heartbeatTick > 0 ∧ c.electionTick > c.heartbeatTick) .invalidConfig
  assertTrue (c.maxInflightMsgs > 0) .invalidConfig
  assertTrue (c.maxInflightBytes = 0 ∨ c.maxInflightBytes ≥ c.maxSizePerMsg) .invalidConfig
  return { c with
    maxUncommittedEntriesSize :=
      if c.maxUncommittedEntriesSize = 0 then noLimit else c.maxUncommittedEntriesSize
    maxCommittedSizePerReady :=
      if c.maxCommittedSizePerReady = 0 then c.maxSizePerMsg else c.maxCommittedSizePerReady
    maxInflightBytes := if c.maxInflightBytes = 0 then noLimit else c.maxInflightBytes }

/-- `pb.ConfChangeTransition`. -/
inductive Transition
  | auto
  | jointImplicit
  | jointExplicit
  deriving DecidableEq, Repr

/-- `pb.ConfChangeV2`, without its context. -/
structure ConfChangeV2 where
  transition : Transition := .auto
  changes : List ConfChangeSingle := []
  deriving DecidableEq, Repr

namespace ConfChangeV2

/-- `ConfChangeV2.LeaveJoint`. -/
def leaveJoint (c : ConfChangeV2) : Bool := c == {}

/-- `ConfChangeV2.EnterJoint`: whether to leave automatically, if joint consensus
is used at all. -/
def enterJoint (c : ConfChangeV2) : Option Bool :=
  if c.transition ≠ .auto ∨ c.changes.length > 1 then some (c.transition ≠ .jointExplicit)
  else none

end ConfChangeV2

namespace RaftNode

/-- What a step function returns: the error, if any, and the node. -/
abbrev StepResult := Except Panic (Option StepErr × RaftNode)

/-- A step that returns no error. -/
def quietly (x : Except Panic RaftNode) : StepResult := do return (none, ← x)

section Steps

variable [Codec] (env : Env) (r : RaftNode)

/-! ## The leader -/

/-- One pass of the loop of `stepLeader` over proposed entries: a configuration
change that is not allowed now becomes an empty entry. -/
def checkConfChange (i : Nat) (e : Entry) : Except Panic (RaftNode × Entry) :=
  if e.type = .normal then return (r, e)
  else
    match Codec.confChanges e.type e.data with
    | none => throw .unmarshal
    | some changes =>
      let alreadyPending := decide (r.pendingConfIndex > r.raftLog.applied)
      let alreadyJoint := Confchange.joint r.config
      let wantsLeaveJoint := changes.isEmpty
      let failedCheck := alreadyPending || (alreadyJoint && !wantsLeaveJoint) ||
        (!alreadyJoint && wantsLeaveJoint)
      if alreadyPending || (failedCheck && !r.disableConfChangeValidation) then
        return (r, { type := .normal })
      else
        return ({ r with pendingConfIndex := r.raftLog.lastIndex + i + 1 }, e)

/-- The loop of `stepLeader` over proposed entries. -/
def checkConfChanges (r : RaftNode) : Nat → List Entry → Except Panic (RaftNode × List Entry)
  | _, [] => return (r, [])
  | i, e :: es => do
      let (r, e) ← r.checkConfChange i e
      let (r, es) ← r.checkConfChanges (i + 1) es
      return (r, e :: es)

/-- `MsgProp` at the leader. -/
def leaderProp (m : Message) : StepResult := do
  assertTrue (m.entries ≠ []) .emptyProposal
  if r.trk[r.id]?.isNone ∨ r.leadTransferee ≠ None then return (some .proposalDropped, r)
  let (r, entries) ← r.checkConfChanges 0 m.entries
  match ← r.appendEntry entries with
  | none => return (some .proposalDropped, r)
  | some r => quietly (r.bcastAppend env)

/-- `MsgCheckQuorum` at the leader. -/
def leaderCheckQuorum : Except Panic RaftNode := do
  let inactive (r : RaftNode) : RaftNode :=
    { r with trk := r.trk.map fun id pr =>
        if id = r.id then pr else { pr with recentActive := false } }
  if r.trk.quorumActive r.config then return inactive r
  return inactive (← r.becomeFollower env r.term r.id)

/-- A rejected `MsgAppResp`: the next probe. -/
def leaderAppReject (pr : Progress) (m : Message) : Except Panic RaftNode := do
  let nextProbeIdx :=
    if m.logTerm > 0 then (r.raftLog.findConflictByTerm m.logTerm m.rejectHint).1
    else m.rejectHint
  let (decreased, pr) := pr.maybeDecrTo m.index nextProbeIdx
  if decreased then
    let pr := if pr.state = .replicate then pr.becomeProbe else pr
    let r := r.setProgress m.src pr
    return (← r.maybeSendAppend env m.src).2
  return r.setProgress m.src pr

/-- The change of the replication state on a new match. -/
def afterMatch (pr : Progress) (index : Nat) : Progress :=
  match pr.state with
  | .probe => pr.becomeReplicate
  | .snapshot =>
    if pr.matchIdx + 1 ≥ r.raftLog.firstIndex then pr.becomeProbe.becomeReplicate else pr
  | .replicate => { pr with inflights := pr.inflights.freeLE index }

/-- Commit what a quorum has, and tell everybody. -/
def commitAndBcast : Except Panic RaftNode := do
  let (moved, r) ← r.maybeCommit
  if moved then r.bcastAppend env else return r

/-- Send to a peer all that flow control allows. -/
def sendAll (dst : PeerID) : Except Panic RaftNode :=
  if dst = r.id then return r else sendAppends env (r.raftLog.lastIndex + 8) r dst

/-- An accepted `MsgAppResp`. -/
def leaderAppAccept (pr : Progress) (m : Message) : Except Panic RaftNode := do
  let (updated, pr) := pr.maybeUpdate m.index
  if updated = true ∨ pr.matchIdx = m.index ∧ pr.state = .probe then
    let r := r.setProgress m.src (r.afterMatch pr m.index)
    let r ← r.commitAndBcast env
    let r ← r.sendAll env m.src
    match r.trk[m.src]? with
    | none => throw .nilProgress
    | some pr =>
      if m.src = r.leadTransferee ∧ pr.matchIdx = r.raftLog.lastIndex then
        r.transferLeader env m.src
      else return r
  else return r.setProgress m.src pr

/-- `MsgAppResp` at the leader. -/
def leaderAppResp (pr : Progress) (m : Message) : Except Panic RaftNode :=
  let pr := { pr with recentActive := true }.maybeUpdateMatchCommit m.commit
  if m.reject then r.leaderAppReject env pr m else r.leaderAppAccept env pr m

/-- `MsgTransferLeader` at the leader. -/
def leaderTransfer (pr : Progress) (m : Message) : Except Panic RaftNode := do
  if pr.isLearner then return r
  if r.leadTransferee ≠ None ∧ r.leadTransferee = m.src then return r
  let r := r.abortLeaderTransfer
  if m.src = r.id then return r
  let r := { r with electionElapsed := 0, leadTransferee := m.src }
  if pr.matchIdx = r.raftLog.lastIndex then r.transferLeader env m.src
  else
    let r := r.setProgress m.src { pr with msgAppProbesPaused := false }
    return (← r.maybeSendAppend env m.src).2

/-- The second half of `stepLeader`, for messages that need a progress. -/
def leaderProgress (m : Message) : Except Panic RaftNode :=
  match r.trk[m.src]? with
  | none => return r
  | some pr =>
    match m.type with
    | .appResp => r.leaderAppResp env pr m
    | .heartbeatResp => do
        let r := r.setProgress m.src
          { pr with recentActive := true, msgAppProbesPaused := false }
        return (← r.maybeSendAppend env m.src).2
    | .snapStatus =>
      if pr.state ≠ .snapshot then return r
      else
        let pr := if m.reject then { pr with pendingSnapshot := 0 } else pr
        return r.setProgress m.src { pr.becomeProbe with msgAppProbesPaused := true }
    | .unreachable =>
      if pr.state = .replicate then return r.setProgress m.src pr.becomeProbe else return r
    | .transferLeader => r.leaderTransfer env pr m
    | _ => return r

/-- `stepLeader`. -/
def stepLeader (m : Message) : StepResult :=
  match m.type with
  | .beat => quietly (r.bcastHeartbeat env)
  | .checkQuorum => quietly (r.leaderCheckQuorum env)
  | .prop => r.leaderProp env m
  | .forgetLeader => return (none, r)
  | .fortifyLeaderResp => do
      r.handleFortifyResp
      quietly (r.leaderProgress env m)
  | _ => quietly (r.leaderProgress env m)

/-! ## Candidates and followers -/

/-- What a candidate makes of the votes it has. -/
def tally : Except Panic RaftNode :=
  match r.votes.tallyVotes r.config with
  | .won =>
    if r.state = .preCandidate then r.campaign env .election
    else do
      let r ← r.becomeLeader env
      let r ← r.bcastFortify env
      r.bcastAppend env
  | .lost => r.becomeFollower env r.term r.lead
  | .pending => return r

/-- The responses a candidate counts: those to its own kind of request. -/
def myVoteRespType : MessageType :=
  if r.state = .preCandidate then .preVoteResp else .voteResp

/-- `stepCandidate`. -/
def stepCandidate (m : Message) : StepResult :=
  if m.type = r.myVoteRespType then
    let r := { r with votes := r.votes.recordVote m.src (!m.reject) }
    quietly (r.tally env)
  else
    match m.type with
    | .prop => return (some .proposalDropped, r)
    | .app => quietly do
        let r ← r.becomeFollower env m.term m.src
        r.handleAppendEntries m
    | .heartbeat => quietly do
        let r ← r.becomeFollower env m.term m.src
        r.handleHeartbeat m
    | .snap => quietly do
        let r ← r.becomeFollower env m.term m.src
        r.handleSnapshot env m
    | .fortifyLeader => quietly do
        let r ← r.becomeFollower env m.term m.src
        r.handleFortify env m
    | _ => return (none, r)

/-- `MsgForgetLeader` at a follower. -/
def forgetLeader (m : Message) : Except Panic RaftNode := do
  if r.lead = None then return r
  let supporting ← r.supportingFortifiedLeader env
  if supporting ∧ r.lead ≠ m.src then return r
  return { r with lead := None, leadEpoch := 0 }

/-- A follower that hears from the leader of its term. -/
def hearLeader (m : Message) : RaftNode :=
  { r with electionElapsed := 0, lead := m.src }

/-- `stepFollower`. -/
def stepFollower (m : Message) : StepResult :=
  match m.type with
  | .prop =>
    if r.lead = None ∨ r.disableProposalForwarding = true ∨ r.lead = r.id then
      return (some .proposalDropped, r)
    else quietly (r.send { m with dst := r.lead })
  | .app => quietly ((r.hearLeader m).handleAppendEntries m)
  | .heartbeat => quietly ((r.hearLeader m).handleHeartbeat m)
  | .snap => quietly ((r.hearLeader m).handleSnapshot env m)
  | .fortifyLeader => quietly ((r.hearLeader m).handleFortify env m)
  | .transferLeader =>
    if r.lead = None ∨ r.lead = r.id then return (none, r)
    else quietly (r.send { m with dst := r.lead })
  | .forgetLeader => quietly (r.forgetLeader env m)
  | .timeoutNow =>
    let r := { r with leadEpoch := 0 }
    quietly (r.hup env .transfer)
  | _ => return (none, r)

/-- The step function of the role. -/
def stepRole (m : Message) : StepResult :=
  match r.state with
  | .leader => r.stepLeader env m
  | .follower => r.stepFollower env m
  | .candidate | .preCandidate => r.stepCandidate env m

/-! ## Applied entries and snapshots -/

/-- The end of `raft.appliedTo`: a joint configuration is left automatically. The
proposal is a local message, which `Step` hands straight to the leader's step
function. -/
def autoLeave : Except Panic RaftNode := do
  if r.config.autoLeave = true ∧ r.raftLog.applied ≥ r.pendingConfIndex ∧ r.state = .leader then
    return (← r.stepLeader env leaveJointMsg).2
  return r

/-- `raft.appliedTo`. -/
def appliedTo (index size : Nat) : Except Panic RaftNode := do
  let raftLog ← r.raftLog.appliedTo (max index r.raftLog.applied) size
  let r := { r with raftLog }
  r.autoLeave env

/-- `raft.appliedSnap`. -/
def appliedSnap (snap : Snapshot) : Except Panic RaftNode :=
  let r := { r with raftLog := r.raftLog.stableSnapTo snap.metadata.index }
  r.appliedTo env snap.metadata.index 0

/-- The snapshot part of `MsgStorageAppendResp`. -/
def ackSnapshot (snap : Option Snapshot) : Except Panic RaftNode :=
  match snap with
  | none => return r
  | some s => r.appliedSnap env s

/-- `MsgStorageAppendResp`: the snapshot precedes the entries. -/
def storageAppendResp (m : Message) : Except Panic RaftNode := do
  let r ← r.ackSnapshot env m.snapshot
  if m.index ≠ 0 then
    return { r with raftLog := ← r.raftLog.stableTo ⟨m.logTerm, m.index⟩ }
  return r

/-- `MsgStorageApplyResp`. -/
def storageApplyResp (m : Message) : Except Panic RaftNode := do
  match m.entries.getLast? with
  | none => return r
  | some e =>
    let r ← r.appliedTo env e.index (entsSize m.entries)
    return r.reduceUncommittedSize (payloadsSize m.entries)

/-! ## `Step` -/

/-- `MsgVote` and `MsgPreVote` at or above the current term. -/
def handleVote (m : Message) : Except Panic RaftNode := do
  let canVote := r.vote = m.src ∨ r.vote = None ∧ r.lead = None ∨
    m.type = .preVote ∧ m.term > r.term
  let upToDate ← r.raftLog.isUpToDate ⟨m.logTerm, m.index⟩
  if canVote ∧ upToDate = true then
    let r ← r.send { dst := m.src, term := m.term, type := voteRespMsgType m.type }
    -- Only real votes are recorded.
    return if m.type = .vote then { r with electionElapsed := 0, vote := m.src } else r
  r.send { dst := m.src, term := r.term, type := voteRespMsgType m.type, reject := true }

/-- The vote part of the term handling: `none` when the request is ignored
because of a leader, and otherwise the node with its support withdrawn. -/
def leaveLeader (m : Message) : Except Panic (Option RaftNode) := do
  let force := m.context = some .transfer
  let inHeartbeatLease := r.checkQuorum = true ∧ r.lead ≠ None ∧
    r.electionElapsed < r.electionTimeout
  let supporting ← r.supportingFortifiedLeader env
  let inFortifyLease := supporting = true ∧ r.lead ≠ m.src
  if ¬ force ∧ (inHeartbeatLease ∨ inFortifyLease) then return none
  return some (← r.deFortify env m.src m.term)

/-- A message of a higher term turns the node into a follower of that term. -/
def higherTerm (m : Message) : Except Panic RaftNode := do
  if m.type = .preVote ∨ m.type = .preVoteResp ∧ m.reject = false then
    -- Pre-votes are about a term in the future and change nothing.
    return r
  if isMsgFromLeader m.type then
    let r ← r.deFortify env m.src m.term
    r.becomeFollower env m.term m.src
  else r.becomeFollower env m.term None

/-- A message of a lower term is answered or ignored. -/
def lowerTerm (m : Message) : Except Panic RaftNode :=
  if (r.checkQuorum || r.preVote) ∧ (m.type = .heartbeat ∨ m.type = .app) then
    r.send { dst := m.src, type := .appResp }
  else if m.type = .preVote then
    r.send { dst := m.src, term := r.term, type := .preVoteResp, reject := true }
  else return r

/-- `Step` once the term of the message is dealt with. -/
def stepType (m : Message) : StepResult :=
  match m.type with
  | .hup => quietly (r.hup env (if r.preVote then .preElection else .election))
  | .storageAppendResp => quietly (r.storageAppendResp env m)
  | .storageApplyResp => quietly (r.storageApplyResp env m)
  | .vote | .preVote => quietly (r.handleVote m)
  | _ => r.stepRole env m

/-- `raft.Step`. -/
def step (m : Message) : StepResult := do
  if m.term = 0 then r.stepType env m
  else if m.term > r.term then
    if m.type = .vote ∨ m.type = .preVote then
      match ← r.leaveLeader env m with
      | none => return (none, r)
      | some r =>
        let r ← r.higherTerm env m
        r.stepType env m
    else
      let r ← r.higherTerm env m
      r.stepType env m
  else if m.term < r.term then quietly (r.lowerTerm m)
  else r.stepType env m

/-! ## Ticks -/

/-- The start of `tickElection`: `none` when a fortified leader is supported. -/
def tickFortified : Except Panic (Option RaftNode) := do
  if r.leadEpoch = 0 then return some r
  let supporting ← r.supportingFortifiedLeader env
  if supporting then return none
  let r ← r.deFortify env r.id r.term
  return some (if r.electionElapsed = 0 then
    { r with electionElapsed := r.electionTimeout - 1 } else r)

/-- `raft.tickElection`. -/
def tickElection : Except Panic RaftNode := do
  assertTrue (r.state ≠ .leader) .tickElectionByLeader
  match ← r.tickFortified env with
  | none => return { r with electionElapsed := 0 }
  | some r =>
    let r := { r with electionElapsed := r.electionElapsed + 1 }
    if r.promotable ∧ r.electionElapsed ≥ r.randomizedElectionTimeout then
      let r := { r with electionElapsed := 0 }
      return (← r.step env { src := r.id, type := .hup }).2
    else return r

/-- The election timeout of a leader: the node, and whether it still leads. -/
def tickCheckQuorum : Except Panic (Bool × RaftNode) := do
  if r.electionElapsed < r.electionTimeout then return (true, r)
  let r := { r with electionElapsed := 0 }
  if r.checkQuorum then
    let (_, r) ← r.step env { src := r.id, type := .checkQuorum }
    if r.state = .leader then return (true, r.abortLeaderTransfer) else return (false, r)
  else return (true, r.abortLeaderTransfer)

/-- `raft.tickHeartbeat`. -/
def tickHeartbeat : Except Panic RaftNode := do
  assertTrue (r.state = .leader) .tickHeartbeatByNonLeader
  let r := { r with
    heartbeatElapsed := r.heartbeatElapsed + 1
    electionElapsed := r.electionElapsed + 1 }
  let (leads, r) ← r.tickCheckQuorum env
  if leads = true ∧ r.heartbeatElapsed ≥ r.heartbeatTimeout then
    let r := { r with heartbeatElapsed := 0 }
    return (← r.step env { src := r.id, type := .beat }).2
  return r

/-- `raft.tick`. -/
def tick : Except Panic RaftNode :=
  if r.state = .leader then r.tickHeartbeat env else r.tickElection env

/-! ## Configuration changes and start-up -/

/-- `raft.applyConfChange`. -/
def applyConfChange (cc : ConfChangeV2) : Except Panic RaftNode := do
  let changer : Confchange.Changer :=
    { config := r.config, progressMap := r.trk, maxInflight := r.maxInflight,
      maxInflightBytes := r.maxInflightBytes, lastIndex := r.raftLog.lastIndex }
  let changed :=
    if cc.leaveJoint then changer.leaveJoint
    else
      match cc.enterJoint with
      | some autoLeave => changer.enterJoint autoLeave cc.changes
      | none => changer.simple cc.changes
  match changed with
  | .error _ => throw .applyConfChange
  | .ok (cfg, trk) => r.switchToConfig env cfg trk

/-- `raft.loadState`, for a hard state that is not empty. -/
def loadState (state : HardState) : Except Panic RaftNode := do
  if isEmptyHardState state then return r
  assertTrue (r.raftLog.committed ≤ state.commit ∧ state.commit ≤ r.raftLog.lastIndex)
    .loadStateOutOfRange
  return { r with
    raftLog := { r.raftLog with committed := state.commit }
    term := state.term
    vote := state.vote
    lead := state.lead
    leadEpoch := state.leadEpoch }

/-- The applied index a restarted node is given. -/
def loadApplied (applied : Nat) : Except Panic RaftNode := do
  if applied > 0 then return { r with raftLog := ← r.raftLog.appliedTo applied 0 }
  return r

/-- `newRaft`. -/
def newRaft (env : Env) (c : Settings) (storage : MemoryStorage) : Except Panic RaftNode := do
  let c ← c.validate
  let raftLog ← RaftLog.newLogWithSize storage c.maxCommittedSizePerReady
  let (hs, cs) := storage.initialState
  let r : RaftNode :=
    { id := c.id
      raftLog
      maxMsgSize := c.maxSizePerMsg
      maxUncommittedSize := c.maxUncommittedEntriesSize
      electionTimeout := c.electionTick
      heartbeatTimeout := c.heartbeatTick
      maxInflight := c.maxInflightMsgs
      maxInflightBytes := c.maxInflightBytes
      checkQuorum := c.checkQuorum
      preVote := c.preVote
      disableProposalForwarding := c.disableProposalForwarding
      disableConfChangeValidation := c.disableConfChangeValidation
      stepDownOnRemoval := c.stepDownOnRemoval }
  let lastID ← r.raftLog.lastEntryID
  let r ← r.restoreConfig env lastID.index cs
  let r ← r.loadState hs
  let r ← r.loadApplied c.applied
  r.becomeFollower env r.term r.lead

end Steps

end RaftNode

end Cockroach.Raft
