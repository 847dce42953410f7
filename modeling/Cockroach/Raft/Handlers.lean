import Cockroach.Raft.State

/-!
# The raft state machine: transitions and handlers (`raft.go`)

The role changes, campaigns, appends and commits, and the handlers of a
follower. They are put together by `Step`.
-/

namespace Cockroach.Raft

/-- The proposal that `confChangeToMsg(nil)` makes: it leaves a joint configuration. -/
def leaveJointMsg : Message := { type := .prop, entries := [{ type := .confChangeV2 }] }

/-- `voteRespMsgType`, for the two vote requests. -/
def voteRespMsgType : MessageType → MessageType
  | .preVote => .preVoteResp
  | _ => .voteResp

/-- `logSliceFromMsgApp`. -/
def logSliceFromMsgApp (m : Message) : LogSlice where
  term := m.term
  prev := ⟨m.logTerm, m.index⟩
  entries := m.entries

namespace ConfState

/-- `ConfState.Equivalent`: equal after sorting. -/
def equivalent (cs cs' : ConfState) : Bool :=
  let sorted (l : List PeerID) := l.insertionSort (· ≤ ·)
  sorted cs.voters == sorted cs'.voters && sorted cs.learners == sorted cs'.learners &&
    sorted cs.votersOutgoing == sorted cs'.votersOutgoing &&
    sorted cs.learnersNext == sorted cs'.learnersNext && cs.autoLeave == cs'.autoLeave

end ConfState

namespace RaftNode

-- the environment and the receiver
variable (env : Env) (r : RaftNode)

/-- `raft.abortLeaderTransfer`. -/
def abortLeaderTransfer : RaftNode := { r with leadTransferee := None }

/-- The progress every peer starts a term with. -/
def resetProgress (id : PeerID) (pr : Progress) : Progress where
  matchIdx := if id = r.id then r.raftLog.lastIndex else 0
  next := r.raftLog.lastIndex + 1
  inflights := Inflights.new r.maxInflight (.ofNat r.maxInflightBytes)
  isLearner := pr.isLearner

/-- The part of `reset` that runs in every call: timers, votes and progresses. -/
def resetRest : RaftNode :=
  { r.abortLeaderTransfer with
    electionElapsed := 0
    heartbeatElapsed := 0
    randomizedElectionTimeout := r.electionTimeout + env.rand
    votes := ∅
    trk := r.trk.map r.resetProgress
    pendingConfIndex := 0
    uncommittedSize := 0 }

/-- `raft.reset`. -/
def reset (term : Nat) : Except Panic RaftNode := do
  if r.term = term then return r.resetRest env
  let supporting ← r.supportingFortifiedLeader env
  assertTrue (supporting = false ∨ r.lead = r.id) (.fortify .resetWhileSupporting)
  let r := { r with term, vote := None, lead := None, leadEpoch := 0 }
  return r.resetRest env

/-- `raft.becomeFollower`. -/
def becomeFollower (term : Nat) (lead : PeerID) : Except Panic RaftNode := do
  let r ← r.reset env term
  return { r with lead, state := .follower }

/-- `raft.becomeCandidate`. -/
def becomeCandidate : Except Panic RaftNode := do
  assertTrue (r.state ≠ .leader) .invalidTransition
  let r ← r.reset env (r.term + 1)
  return { r with vote := r.id, state := .candidate }

/-- `raft.becomePreCandidate`. -/
def becomePreCandidate : Except Panic RaftNode := do
  assertTrue (r.state ≠ .leader) .invalidTransition
  let supporting ← r.supportingFortifiedLeader env
  assertTrue (supporting = false ∨ r.lead = r.id) (.fortify .preCandidateWhileSupporting)
  return { r with votes := ∅, lead := None, leadEpoch := 0, state := .preCandidate }

/-- `raft.increaseUncommittedSize`; `none` is the result `false`. -/
def increaseUncommittedSize (ents : List Entry) : Option RaftNode :=
  let s := payloadsSize ents
  if r.uncommittedSize > 0 ∧ s > 0 ∧ r.uncommittedSize + s > r.maxUncommittedSize then none
  else some { r with uncommittedSize := r.uncommittedSize + s }

/-- `raft.reduceUncommittedSize`. -/
def reduceUncommittedSize (s : Nat) : RaftNode :=
  { r with uncommittedSize := r.uncommittedSize - s }

/-- The entries of a proposal with the positions the leader gives them. -/
def stamp (term : Nat) : Nat → List Entry → List Entry
  | _, [] => []
  | index, e :: es => { e with term, index } :: stamp term (index + 1) es

/-- `raft.appendEntry`; `none` is the result `false`. -/
def appendEntry (es : List Entry) : Except Panic (Option RaftNode) := do
  let last ← r.raftLog.lastEntryID
  let es := stamp r.term (last.index + 1) es
  match r.increaseUncommittedSize es with
  | none => return none
  | some r =>
    let app : LogSlice := { term := r.term, prev := last, entries := es }
    assertTrue (app.valid = true) .leaderCannotAppend
    match r.raftLog.append app with
    | none => throw .leaderCannotAppend
    | some raftLog =>
      match r.trk[r.id]? with
      | none => throw .nilProgress
      | some pr =>
        -- The leader acknowledges its own entries once they are durable.
        let r := { r with raftLog }
        let r := r.setProgress r.id { pr with next := app.lastIndex + 1 }
        return some (← r.send { dst := r.id, type := .appResp,
                                index := r.raftLog.lastIndex,
                                commit := r.raftLog.committed })

/-- `raft.becomeLeader`. -/
def becomeLeader : Except Panic RaftNode := do
  assertTrue (r.state ≠ .follower) .invalidTransition
  let r ← r.reset env r.term
  let r := { r with lead := r.id, state := .leader }
  match r.trk[r.id]? with
  | none => throw .nilProgress
  | some pr =>
    let r := r.setProgress r.id { pr.becomeReplicate with recentActive := true }
    let r := { r with pendingConfIndex := r.raftLog.lastIndex }
    match ← r.appendEntry [{}] with
    | none => throw .emptyEntryDropped
    | some r => return r

/-- `raft.maybeCommit`: the node and whether the commit index moved. -/
def maybeCommit : Except Panic (Bool × RaftNode) := do
  let index := r.trk.committed r.config
  if index ≤ r.raftLog.committed then return (false, r)
  -- Only entries of the current term are committed by counting replicas.
  if !r.raftLog.matchTerm ⟨r.term, index⟩ then return (false, r)
  let raftLog ← r.raftLog.commitTo ⟨r.term, index⟩
  return (true, { r with raftLog })

/-- `raft.promotable`. -/
def promotable : Bool :=
  match r.trk[r.id]? with
  | none => false
  | some pr => !pr.isLearner && !r.raftLog.hasNextOrInProgressSnapshot

/-- `raft.checkMatch`. -/
def checkMatch (matchIdx : Nat) : Except Panic Unit :=
  assertTrue (matchIdx ≤ r.raftLog.lastIndex) .matchOutOfRange

/-- `raft.handleAppendEntries`. -/
def handleAppendEntries (m : Message) : Except Panic RaftNode := do
  r.checkMatch m.matchIdx
  let a := logSliceFromMsgApp m
  if a.valid = false then return r
  if a.prev.index < r.raftLog.committed then
    r.send { dst := m.src, type := .appResp, index := r.raftLog.committed,
             commit := r.raftLog.committed }
  else
    match ← r.raftLog.maybeAppend a with
    | some raftLog =>
      let raftLog ← raftLog.commitTo ⟨m.term, min m.commit a.lastIndex⟩
      let r := { r with raftLog }
      r.send { dst := m.src, type := .appResp, index := a.lastIndex,
               commit := r.raftLog.committed }
    | none =>
      -- A guess on where the logs match at most.
      let hintIndex := min m.index r.raftLog.lastIndex
      let (hintIndex, hintTerm) := r.raftLog.findConflictByTerm m.logTerm hintIndex
      r.send { dst := m.src, type := .appResp, index := m.index,
               commit := r.raftLog.committed, reject := true, rejectHint := hintIndex,
               logTerm := hintTerm }

/-- The commit of a heartbeat only counts when the last accepted append came
from its leader. -/
def heartbeatCommit (m : Message) : Except Panic RaftNode := do
  let mark : LogMark := ⟨m.term, min m.commit r.raftLog.lastIndex⟩
  if mark.term = r.raftLog.accTerm then
    return { r with raftLog := ← r.raftLog.commitTo mark }
  return r

/-- `raft.handleHeartbeat`. -/
def handleHeartbeat (m : Message) : Except Panic RaftNode := do
  r.checkMatch m.matchIdx
  let r ← r.heartbeatCommit m
  r.send { dst := m.src, type := .heartbeatResp }

/-- `raft.handleFortify`. -/
def handleFortify (m : Message) : Except Panic RaftNode := do
  assertTrue (r.state = .follower) (.fortify .handleFortifyNotFollower)
  assertTrue (r.lead = m.src) (.fortify .handleFortifyNotLead)
  let (epoch, live) := env.supportFor r.lead
  if live then
    let r := { r with leadEpoch := epoch }
    r.send { dst := m.src, type := .fortifyLeaderResp, leadEpoch := epoch }
  else
    r.send { dst := m.src, type := .fortifyLeaderResp, reject := true }

/-- `raft.handleFortifyResp`. -/
def handleFortifyResp : Except Panic Unit :=
  assertTrue (r.state = .leader) (.fortify .handleFortifyRespNotLeader)

/-- `raft.transferLeader`. -/
def transferLeader (dst : PeerID) : Except Panic RaftNode := do
  assertTrue (r.state = .leader) .transferByNonLeader
  let r ← r.send { dst, type := .timeoutNow }
  r.becomeFollower env r.term r.lead

section Sizes

variable [Codec] (env : Env) (r : RaftNode)

/-- The pages of `scan` in `hasUnappliedConfChanges`: whether `[lo, hi)` has a
configuration change. Each page has at least one entry, so `hi - lo` bounds the
number of pages. -/
def scanConfChange (l : RaftLog) (hi : Nat) : Nat → Nat → Except Panic Bool
  | 0, _ => return false
  | fuel + 1, lo =>
    if lo < hi then do
      match ← l.slice lo hi l.maxApplyingEntsSize with
      | .error _ => throw .scanUnapplied
      | .ok ents =>
        if ents.isEmpty then throw .scanUnapplied
        else if ents.any (fun e => e.type = .confChange || e.type = .confChangeV2) then
          return true
        else scanConfChange l hi fuel (lo + ents.length)
    else return false

/-- `raft.hasUnappliedConfChanges`. -/
def hasUnappliedConfChanges : Except Panic Bool := do
  if r.raftLog.applied ≥ r.raftLog.committed then return false
  scanConfChange r.raftLog (r.raftLog.committed + 1) (r.raftLog.committed - r.raftLog.applied)
    (r.raftLog.applied + 1)

/-- The role change of `campaign`, with the type and term of its requests. -/
def startCampaign (t : CampaignType) : Except Panic (RaftNode × MessageType × Nat) := do
  match t with
  | .preElection =>
    let r ← r.becomePreCandidate env
    return (r, .preVote, r.term + 1)
  | .election | .transfer =>
    let r ← r.becomeCandidate env
    return (r, .vote, r.term)

/-- One request of `campaign`; the vote for oneself is a response that waits
until it is durable. -/
def requestVote (t : CampaignType) (voteMsg : MessageType) (term : Nat) (r : RaftNode)
    (id : PeerID) : Except Panic RaftNode := do
  if id = r.id then
    r.send { dst := id, term, type := voteRespMsgType voteMsg }
  else
    let last ← r.raftLog.lastEntryID
    r.send { dst := id, term, type := voteMsg, index := last.index, logTerm := last.term,
             context := if t = .transfer then some t else none }

/-- `raft.campaign`. -/
def campaign (t : CampaignType) : Except Panic RaftNode := do
  let (r, voteMsg, term) ← r.startCampaign env t
  (Lib.ascending r.config.voters.ids).foldlM (requestVote t voteMsg term) r

/-- `raft.hup`. -/
def hup (t : CampaignType) : Except Panic RaftNode := do
  if r.state = .leader then return r
  if !r.promotable then return r
  let supporting ← r.supportingFortifiedLeader env
  if supporting ∧ r.lead ≠ r.id then return r
  let unapplied ← r.hasUnappliedConfChanges
  if unapplied then return r
  r.campaign env t

/-- The part of `switchToConfig` for a leader that stays. -/
def leadNewConfig : Except Panic RaftNode := do
  let (_, r) ← r.maybeCommit
  let r ← r.bcastAppend env
  return if r.leadTransferee ∉ r.config.voters.ids ∧ r.leadTransferee ≠ None then
    r.abortLeaderTransfer
  else r

/-- `raft.switchToConfig`; the returned `ConfState` is the one of `cfg`. -/
def switchToConfig (cfg : Config) (trk : ProgressMap) : Except Panic RaftNode := do
  let isLearner := match trk[r.id]? with
    | some pr => pr.isLearner
    | none => false
  let r := { r with config := cfg, trk, isLearner }
  if (trk[r.id]?.isNone || isLearner) ∧ r.state = .leader then
    -- The leader was removed or demoted.
    if r.stepDownOnRemoval then r.becomeFollower env r.term r.lead else return r
  else if r.state ≠ .leader ∨ cfg.confState.voters = [] then return r
  else r.leadNewConfig env

/-- The configuration that `confchange.Restore` builds from `cs`, as the callers
in `newRaft` and `restore` use it. -/
def restoreConfig (lastIndex : Nat) (cs : ConfState) : Except Panic RaftNode := do
  let changer : Confchange.Changer :=
    { config := Config.makeEmpty, progressMap := ∅, maxInflight := r.maxInflight,
      maxInflightBytes := r.maxInflightBytes, lastIndex }
  match Confchange.restore changer cs with
  | .error _ => throw .restoreConfig
  | .ok (cfg, trk) =>
    let r ← r.switchToConfig env cfg trk
    assertTrue (cs.equivalent cfg.confState = true) .restoreConfig
    return r

/-- `raft.restore`: the node and whether the snapshot replaced its log. -/
def restore (s : TermSnapshot) : Except Panic (Bool × RaftNode) := do
  let id := s.lastEntryID
  if id.index ≤ r.raftLog.committed then return (false, r)
  assertTrue (r.state = .follower) .restoreNotFollower
  let cs := s.snap.metadata.confState
  if r.id ∉ cs.voters ∧ r.id ∉ cs.learners ∧ r.id ∉ cs.votersOutgoing then return (false, r)
  if r.raftLog.matchTerm id then
    -- The log has the last entry of the snapshot: only the commit index moves.
    return (false, { r with raftLog := ← r.raftLog.commitTo ⟨s.mark.term, s.mark.index⟩ })
  match r.raftLog.restore s with
  | none => return (false, r)
  | some raftLog =>
    let r := { r with raftLog }
    return (true, ← r.restoreConfig env raftLog.lastIndex cs)

/-- `raft.handleSnapshot`. -/
def handleSnapshot (m : Message) : Except Panic RaftNode := do
  let s : TermSnapshot := { term := m.term, snap := m.snapshot.getD {} }
  if s.valid = false then return r
  let (restored, r) ← r.restore env s
  r.send { dst := m.src, type := .appResp,
           index := if restored then r.raftLog.lastIndex else r.raftLog.committed,
           commit := r.raftLog.committed }

end Sizes

end RaftNode

end Cockroach.Raft
