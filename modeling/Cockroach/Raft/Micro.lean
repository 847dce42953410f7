import Cockroach.Raft.LogWrites
import Cockroach.Raft.Step

/-!
# What a call can do to a node

Every call into the state machine is a sequence of small steps of a few kinds:
it changes role, grants or counts a vote, changes the log, moves the commit
index, queues a message. `Micro` lists the kinds, each with what the code has
checked by then; `inp` is the message the call is about. Everything proved about
nodes starts from this list, not from the functions.

A call may also panic in an assertion of the fortification protocol. `Fails` says
that it then does so from a state it has reached by small steps, and `Broken`
what is wrong with that state.
-/

namespace Cockroach.Raft

open Lib

namespace RaftNode

/-- The message as `send` queues it. -/
def stamped (r : RaftNode) (m : Message) : Message :=
  { m with
    src := if m.src = None then r.id else m.src
    term := match m.type with
      | .vote | .voteResp | .preVote | .preVoteResp | .prop => m.term
      | _ => r.term }

/-- A message joins the queue of its type. -/
def post (r : RaftNode) (m : Message) : RaftNode :=
  if sentAfterAppend m.type then { r with msgsAfterAppend := r.msgsAfterAppend ++ [m] }
  else { r with msgs := r.msgs ++ [m] }

section Post

variable (r : RaftNode) (m : Message)

@[simp] theorem post_id : (r.post m).id = r.id := by
  unfold post
  split <;> rfl

@[simp] theorem post_term : (r.post m).term = r.term := by
  unfold post
  split <;> rfl

@[simp] theorem post_lead : (r.post m).lead = r.lead := by
  unfold post
  split <;> rfl

@[simp] theorem post_leadEpoch : (r.post m).leadEpoch = r.leadEpoch := by
  unfold post
  split <;> rfl

end Post

/-- The node at the start of term `t`, unless it is there already. -/
def atTerm (r : RaftNode) (t : Nat) : RaftNode :=
  if r.term = t then r else { r with term := t, vote := None, lead := None, leadEpoch := 0 }

section AtTerm

variable (r : RaftNode) (t : Nat)

@[simp] theorem atTerm_id : (r.atTerm t).id = r.id := by
  unfold atTerm
  split <;> rfl

@[simp] theorem atTerm_term : (r.atTerm t).term = t := by
  unfold atTerm
  split
  · assumption
  · rfl

@[simp] theorem atTerm_raftLog : (r.atTerm t).raftLog = r.raftLog := by
  unfold atTerm
  split <;> rfl

@[simp] theorem atTerm_config : (r.atTerm t).config = r.config := by
  unfold atTerm
  split <;> rfl

@[simp] theorem atTerm_msgs : (r.atTerm t).msgs = r.msgs := by
  unfold atTerm
  split <;> rfl

@[simp] theorem atTerm_msgsAfterAppend : (r.atTerm t).msgsAfterAppend = r.msgsAfterAppend := by
  unfold atTerm
  split <;> rfl

end AtTerm

/-- A follower of `l` at term `t`, as `becomeFollower` leaves it. -/
def asFollower (env : Env) (r : RaftNode) (t : Nat) (l : PeerID) : RaftNode :=
  { (r.atTerm t).resetRest env with lead := l, state := .follower }

/-- A candidate of the next term, as `becomeCandidate` leaves it. -/
def asCandidate (env : Env) (r : RaftNode) : RaftNode :=
  let r := (r.atTerm (r.term + 1)).resetRest env
  { r with vote := r.id, state := .candidate }

/-- A pre-candidate, as `becomePreCandidate` leaves it. -/
def asPreCandidate (r : RaftNode) : RaftNode :=
  { r with votes := ∅, lead := None, leadEpoch := 0, state := .preCandidate }

/-- A leader that has not appended its first entry yet. -/
def asLeader (env : Env) (r : RaftNode) : RaftNode :=
  { r.resetRest env with lead := r.id, state := .leader }

/-- The fields that the small steps are about. -/
structure SameCore (r r' : RaftNode) : Prop where
  id : r'.id = r.id
  term : r'.term = r.term
  vote : r'.vote = r.vote
  raftLog : r'.raftLog = r.raftLog
  config : r'.config = r.config
  votes : r'.votes = r.votes
  state : r'.state = r.state
  lead : r'.lead = r.lead
  leadEpoch : r'.leadEpoch = r.leadEpoch
  acked : ∀ n, r'.trk.ackedIndex n = r.trk.ackedIndex n

/-- The message is local or of the current term. -/
def AtTerm (r : RaftNode) (m : Message) : Prop := m.term = 0 ∨ m.term = r.term

/-- The messages only a leader sends, and a follower takes its leader from. -/
def fromLeader : MessageType → Bool
  | .app | .heartbeat | .snap | .fortifyLeader => true
  | _ => false

/-- A message of a higher term that makes the receiver a follower of that term. -/
structure Raises (r : RaftNode) (m : Message) : Prop where
  higher : r.term < m.term
  notPreVote : m.type ≠ .preVote
  notGranted : ¬ (m.type = .preVoteResp ∧ m.reject = false)

/-- Why a node becomes a follower of leader `l` at term `t`. -/
inductive Follow (inp : Message) (r : RaftNode) : Nat → PeerID → Prop
  | higher (h : r.Raises inp) :
      Follow inp r inp.term (if isMsgFromLeader inp.type then inp.src else None)
  | leader (ht : r.AtTerm inp) (hs : r.state = .candidate ∨ r.state = .preCandidate)
      (hm : fromLeader inp.type = true) : Follow inp r inp.term inp.src
  | same (hs : r.state = .candidate ∨ r.state = .preCandidate ∨ r.state = .leader) :
      Follow inp r r.term r.lead
  | stepDown (hs : r.state = .leader) : Follow inp r r.term r.id

section Relations

variable [Codec]

/-- The messages a node may queue without changing anything else. -/
inductive MaySend (inp : Message) (r : RaftNode) : Message → Prop
  | app {dst : PeerID} {index logTerm lo maxSize matchIdx : Nat} {entries : List Entry}
      (hl : r.state = .leader) (ht : r.raftLog.term index = .ok logTerm)
      (he : entries = [] ∨ index = lo - 1 ∧ r.raftLog.entries lo maxSize = .ok (.ok entries)) :
      MaySend inp r { type := .app, dst, src := r.id, term := r.term, index, logTerm, entries,
                      commit := r.raftLog.committed, matchIdx }
  | snap {dst : PeerID} (hl : r.state = .leader)
      (hne : isEmptySnap r.raftLog.snapshot = false) :
      MaySend inp r { type := .snap, dst, src := r.id, term := r.term,
                      snapshot := some r.raftLog.snapshot }
  | heartbeat {dst : PeerID} {commit matchIdx : Nat} (hl : r.state = .leader)
      (hc : commit ≤ r.raftLog.committed) :
      MaySend inp r { type := .heartbeat, dst, src := r.id, term := r.term, commit, matchIdx }
  | vote {dst : PeerID} {last : EntryID} {context : Option CampaignType}
      (hs : r.state = .candidate) (hl : r.raftLog.lastEntryID = .ok last) :
      MaySend inp r { type := .vote, dst, src := r.id, term := r.term, index := last.index,
                      logTerm := last.term, context }
  | selfVote (hs : r.state = .candidate) (hv : r.vote = r.id) :
      MaySend inp r { type := .voteResp, dst := r.id, src := r.id, term := r.term }
  | voteReject {dst : PeerID} :
      MaySend inp r { type := .voteResp, dst, src := r.id, term := r.term, reject := true }
  | appReject {dst : PeerID} {index commit rejectHint logTerm : Nat} :
      MaySend inp r { type := .appResp, dst, src := r.id, term := r.term, index, commit,
                      reject := true, rejectHint, logTerm }
  | appStale {dst : PeerID} :
      MaySend inp r { type := .appResp, dst, src := r.id, term := r.term }
  | fortify {dst : PeerID} (hl : r.state = .leader) :
      MaySend inp r { type := .fortifyLeader, dst, src := r.id, term := r.term }
  | timeoutNow {dst : PeerID} (hl : r.state = .leader) :
      MaySend inp r { type := .timeoutNow, dst, src := r.id, term := r.term }
  | forward (hs : r.state = .follower) (hm : inp.type = .prop ∨ inp.type = .transferLeader) :
      MaySend inp r (r.stamped { inp with dst := r.lead })
  | other {m : Message} (hm : m.type = .preVote ∨ m.type = .preVoteResp ∨
        m.type = .heartbeatResp ∨ m.type = .fortifyLeaderResp) (hs : m.src = r.id) :
      MaySend inp r m

/-- An acknowledgement of the log up to `index`. -/
def appAck (r : RaftNode) (dst : PeerID) (index : Nat) : Message where
  type := .appResp
  dst := dst
  src := r.id
  term := r.term
  index := index
  commit := r.raftLog.committed

/-- The snapshot of a `MsgSnap`. -/
def msgSnapshot (m : Message) : TermSnapshot where
  term := m.term
  snap := m.snapshot.getD {}

/-- One small step of a call about the message `inp`. -/
inductive Micro (env : Env) (inp : Message) : RaftNode → RaftNode → Prop
  | quiet {r r' : RaftNode} (h : SameCore r r') (hm : r'.msgs = r.msgs)
      (ha : r'.msgsAfterAppend = r.msgsAfterAppend) : Micro env inp r r'
  | send {r : RaftNode} {m : Message} (h : MaySend inp r m) : Micro env inp r (r.post m)
  | follow {r : RaftNode} {t : Nat} {l : PeerID} (h : Follow inp r t l) :
      Micro env inp r (r.asFollower env t l)
  | campaign {r : RaftNode} (hs : r.state ≠ .leader) : Micro env inp r (r.asCandidate env)
  | preCampaign {r : RaftNode} (hs : r.state ≠ .leader) : Micro env inp r r.asPreCandidate
  | lead {r : RaftNode} (hs : r.state = .candidate)
      (hw : r.votes.tallyVotes r.config = .won) : Micro env inp r (r.asLeader env)
  | record {r : RaftNode} (ht : r.AtTerm inp)
      (hm : r.state = .candidate ∧ inp.type = .voteResp) :
      Micro env inp r { r with votes := r.votes.recordVote inp.src (!inp.reject) }
  | recordPre {r : RaftNode} (hm : r.state = .preCandidate ∧ inp.type = .preVoteResp) :
      Micro env inp r { r with votes := r.votes.recordVote inp.src (!inp.reject) }
  | propose {r : RaftNode} {last : EntryID} {es : List Entry} {l : RaftLog}
      (hs : r.state = .leader) (hlast : r.raftLog.lastEntryID = .ok last)
      (hv : (LogSlice.mk r.term last (stamp r.term (last.index + 1) es)).valid = true)
      (hl : r.raftLog.append ⟨r.term, last, stamp r.term (last.index + 1) es⟩ = some l) :
      Micro env inp r
        ({ r with raftLog := l }.post ({ r with raftLog := l }.appAck r.id l.lastIndex))
  | matched {r r' : RaftNode} {k : Nat} (hs : r.state = .leader) (ht : r.AtTerm inp)
      (hm : inp.type = .appResp ∧ inp.reject = false)
      (hk : r.trk.ackedIndex inp.src = some k) (hlt : k < inp.index)
      (hr : r' = { r with trk := r'.trk })
      (ha : ∀ n, r'.trk.ackedIndex n =
        if n = inp.src then some inp.index else r.trk.ackedIndex n) : Micro env inp r r'
  | commit {r : RaftNode} {l : RaftLog} (hs : r.state = .leader)
      (hlt : r.raftLog.committed < r.trk.committed r.config)
      (hm : r.raftLog.matchTerm ⟨r.term, r.trk.committed r.config⟩ = true)
      (hl : r.raftLog.commitTo ⟨r.term, r.trk.committed r.config⟩ = .ok l) :
      Micro env inp r { r with raftLog := l }
  | accept {r : RaftNode} {l l' : RaftLog} (hs : r.state = .follower) (ht : r.AtTerm inp)
      (hm : inp.type = .app) (hv : (logSliceFromMsgApp inp).valid = true)
      (hc : r.raftLog.committed ≤ inp.index)
      (hl : r.raftLog.maybeAppend (logSliceFromMsgApp inp) = .ok (some l))
      (hl' : l.commitTo ⟨inp.term, min inp.commit (logSliceFromMsgApp inp).lastIndex⟩ = .ok l') :
      Micro env inp r ({ r with raftLog := l' }.post
        ({ r with raftLog := l' }.appAck inp.src (logSliceFromMsgApp inp).lastIndex))
  | ackCommitted {r : RaftNode} (hs : r.state = .follower) (ht : r.AtTerm inp)
      (hm : inp.type = .app ∨ inp.type = .snap) :
      Micro env inp r (r.post (r.appAck inp.src r.raftLog.committed))
  | heartbeatCommit {r : RaftNode} {l : RaftLog} (hs : r.state = .follower) (ht : r.AtTerm inp)
      (hm : inp.type = .heartbeat) (ha : inp.term = r.raftLog.accTerm)
      (hl : r.raftLog.commitTo ⟨inp.term, min inp.commit r.raftLog.lastIndex⟩ = .ok l) :
      Micro env inp r { r with raftLog := l }
  | snapCommit {r : RaftNode} {l : RaftLog} (hs : r.state = .follower) (ht : r.AtTerm inp)
      (hm : inp.type = .snap) (hv : (msgSnapshot inp).valid = true)
      (hgt : r.raftLog.committed < (msgSnapshot inp).lastIndex)
      (hmt : r.raftLog.matchTerm (msgSnapshot inp).lastEntryID = true)
      (hl : r.raftLog.commitTo ⟨(msgSnapshot inp).mark.term, (msgSnapshot inp).mark.index⟩ =
        .ok l) : Micro env inp r { r with raftLog := l }
  | snapRestore {r : RaftNode} {l : RaftLog} {changer : Confchange.Changer} {cfg : Config}
      {trk : ProgressMap} {isLearner : Bool} (hs : r.state = .follower) (ht : r.AtTerm inp)
      (hm : inp.type = .snap) (hv : (msgSnapshot inp).valid = true)
      (hgt : r.raftLog.committed < (msgSnapshot inp).lastIndex)
      (hl : r.raftLog.restore (msgSnapshot inp) = some l)
      (hc : Confchange.restore changer (msgSnapshot inp).snap.metadata.confState =
        .ok (cfg, trk))
      (heq : (msgSnapshot inp).snap.metadata.confState.equivalent cfg.confState = true) :
      Micro env inp r ({ r with raftLog := l, config := cfg, trk, isLearner }.post
        ({ r with raftLog := l }.appAck inp.src l.lastIndex))
  | grant {r : RaftNode} (ht : inp.term = r.term) (hm : inp.type = .vote)
      (hv : r.vote = inp.src ∨ r.vote = None ∧ r.lead = None)
      (hu : r.raftLog.isUpToDate ⟨inp.logTerm, inp.index⟩ = .ok true) :
      Micro env inp r ({ r with vote := inp.src }.post
        { type := .voteResp, dst := inp.src, src := r.id, term := r.term })
  | hear {r : RaftNode} (hs : r.state = .follower) (ht : r.AtTerm inp)
      (hm : fromLeader inp.type = true) : Micro env inp r { r with lead := inp.src }
  | forget {r : RaftNode} (hs : r.state = .follower) :
      Micro env inp r { r with lead := None, leadEpoch := 0 }
  | deFortify {r : RaftNode} : Micro env inp r { r with leadEpoch := 0 }
  | fortify {r : RaftNode}
      (hs : r.state = .follower ∧ r.lead = inp.src ∧ r.AtTerm inp ∧ inp.type = .fortifyLeader ∨
        r.state = .leader)
      (hl : (env.supportFor r.lead).2 = true) :
      Micro env inp r { r with leadEpoch := (env.supportFor r.lead).1 }
  | ackSnapshot {r : RaftNode} {l : RaftLog} {s : Snapshot}
      (hm : inp.type = .storageAppendResp) (hs : inp.snapshot = some s)
      (hl : r.raftLog.appliedSnap (some s) = .ok l) : Micro env inp r { r with raftLog := l }
  | ackEntries {r : RaftNode} {l : RaftLog} (hm : inp.type = .storageAppendResp)
      (hi : inp.index ≠ 0) (hl : r.raftLog.stableTo ⟨inp.logTerm, inp.index⟩ = .ok l) :
      Micro env inp r { r with raftLog := l }
  | ackApply {r : RaftNode} {l : RaftLog} {e : Entry} (hm : inp.type = .storageApplyResp)
      (he : inp.entries.getLast? = some e)
      (hl : r.raftLog.appliedTo (max e.index r.raftLog.applied) (entsSize inp.entries) = .ok l) :
      Micro env inp r { r with raftLog := l }

/-- A sequence of small steps. -/
abbrev Steps (env : Env) (inp : Message) : RaftNode → RaftNode → Prop :=
  Relation.ReflTransGen (Micro env inp)

end Relations

/-- The node supports a fortified leader other than itself. -/
def Supports (env : Env) (r : RaftNode) : Prop :=
  r.leadEpoch ≠ 0 ∧ env.supportFor r.lead = (r.leadEpoch, true) ∧ r.lead ≠ r.id

/-- What is wrong with the state an assertion of the fortification protocol fails
in. Most of the assertions never fail. -/
def Broken (env : Env) (inp : Message) (r : RaftNode) : FortifyAssertion → Prop
  | .leadEpochWithoutLead => r.leadEpoch ≠ 0 ∧ r.lead = None
  | .epochRegressed => r.leadEpoch ≠ 0 ∧ (env.supportFor r.lead).1 < r.leadEpoch
  | .resetWhileSupporting => r.Supports env ∧
      (r.Raises inp ∧ isMsgFromLeader inp.type = false ∧ inp.type ≠ .vote ∨
        r.state = .candidate ∨ r.state = .preCandidate)
  | _ => False

/-- A panic in a fortification assertion comes from a broken state on the way. -/
def Fails [Codec] (env : Env) (inp : Message) (r : RaftNode) (p : Panic) : Prop :=
  ∀ a, p = .fortify a → ∃ r', Steps env inp r r' ∧ r'.Broken env inp a

end RaftNode

end Cockroach.Raft
