import Mathlib

/-!
# The wire types of `pkg/raft/raftpb`

Entries, snapshots, hard states, configuration states and messages. Unsigned
64-bit fields are natural numbers; every record starts from Go's zero values,
so that a message is written with only the fields the source sets.

`MsgStorageAppend` and `MsgStorageApply` are the only messages that carry
`Responses`, and they never leave the node; they have record types of their own
(`StorageAppend`, `StorageApply` in `RawNode`).
-/

namespace Cockroach.Raft

/-- `pb.PeerID`. -/
abbrev PeerID := Nat

/-- `pb.Epoch`, a store liveness epoch. -/
abbrev Epoch := Int

/-- A byte slice. `nil` and the empty slice are the same value here. -/
abbrev Bytes := List UInt8

/-- The placeholder id used when there is no leader or no vote. -/
def None : PeerID := 0

/-- The local thread that writes log entries and snapshots to storage. -/
def LocalAppendThread : PeerID := 2 ^ 64 - 1

/-- The local thread that applies committed entries. -/
def LocalApplyThread : PeerID := 2 ^ 64 - 2

inductive EntryType
  | normal
  | confChange
  | confChangeV2
  deriving DecidableEq, Repr, Inhabited

structure Entry where
  term : Nat := 0
  index : Nat := 0
  type : EntryType := .normal
  data : Bytes := []
  deriving DecidableEq, Repr, Inhabited

structure ConfState where
  voters : List PeerID := []
  learners : List PeerID := []
  votersOutgoing : List PeerID := []
  learnersNext : List PeerID := []
  autoLeave : Bool := false
  deriving DecidableEq, Repr, Inhabited

structure SnapshotMetadata where
  confState : ConfState := {}
  index : Nat := 0
  term : Nat := 0
  deriving DecidableEq, Repr, Inhabited

structure Snapshot where
  data : Bytes := []
  metadata : SnapshotMetadata := {}
  deriving DecidableEq, Repr, Inhabited

structure HardState where
  term : Nat := 0
  vote : PeerID := None
  commit : Nat := 0
  lead : PeerID := None
  leadEpoch : Epoch := 0
  deriving DecidableEq, Repr, Inhabited

/-- `IsEmptyHardState`. -/
def isEmptyHardState (st : HardState) : Bool := st == {}

/-- `IsEmptySnap`. -/
def isEmptySnap (sp : Snapshot) : Bool := sp.metadata.index == 0

inductive MessageType
  | hup | beat | prop | app | appResp | vote | voteResp | snap | heartbeat
  | heartbeatResp | unreachable | snapStatus | checkQuorum | transferLeader
  | timeoutNow | preVote | preVoteResp | storageAppend | storageAppendResp
  | storageApply | storageApplyResp | forgetLeader | fortifyLeader
  | fortifyLeaderResp
  deriving DecidableEq, Repr, Inhabited

/-- `CampaignType`. Only `transfer` is ever written into a message context. -/
inductive CampaignType
  | preElection
  | election
  | transfer
  deriving DecidableEq, Repr, Inhabited

/-- `pb.Message`, without the `Responses` of storage messages. `dst`, `src` and
`matchIdx` are the fields `To`, `From` and `Match`. -/
structure Message where
  type : MessageType
  dst : PeerID := None
  src : PeerID := None
  term : Nat := 0
  logTerm : Nat := 0
  index : Nat := 0
  entries : List Entry := []
  commit : Nat := 0
  lead : PeerID := None
  leadEpoch : Epoch := 0
  vote : PeerID := None
  snapshot : Option Snapshot := none
  reject : Bool := false
  rejectHint : Nat := 0
  context : Option CampaignType := none
  matchIdx : Nat := 0
  deriving DecidableEq, Repr, Inhabited

/-- `IsMsgFromLeader`. -/
def isMsgFromLeader : MessageType → Bool
  | .app | .snap | .heartbeat | .fortifyLeader | .timeoutNow => true
  | _ => false

/-- `IsLocalMsgTarget`. -/
def isLocalMsgTarget (id : PeerID) : Bool :=
  id == LocalAppendThread || id == LocalApplyThread

inductive ConfChangeType
  | addNode
  | removeNode
  | updateNode
  | addLearnerNode
  /-- Any other value of the open protobuf enumeration. -/
  | unknown (n : Nat)
  deriving DecidableEq, Repr, Inhabited

structure ConfChangeSingle where
  type : ConfChangeType := .addNode
  nodeID : PeerID := 0
  deriving DecidableEq, Repr, Inhabited

end Cockroach.Raft
