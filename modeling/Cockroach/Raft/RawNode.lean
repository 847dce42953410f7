import Cockroach.Raft.LogWrites
import Cockroach.Raft.Step

/-!
# Readies and storage messages (`rawnode.go`)

`RawNode` with asynchronous storage writes: `Ready` hands out the messages to
send, one `MsgStorageAppend` for the append thread and one `MsgStorageApply` for
the apply thread. Both carry the responses to deliver once they are processed.
-/

namespace Cockroach.Raft

/-- `MsgStorageAppend`: the log write, the hard state (empty when it did not
change) and the responses to release once both are durable. -/
structure StorageAppend extends LogWrite where
  hardState : HardState := {}
  responses : List Message := []
  deriving DecidableEq, Repr, Inhabited

/-- `MsgStorageApply`: the entries to apply and the response to release then. -/
structure StorageApply where
  entries : List Entry := []
  response : Message
  deriving DecidableEq, Repr

/-- What the append thread does with a `MsgStorageAppend`, up to releasing its
responses. -/
def StorageAppend.persist (m : StorageAppend) (ms : MemoryStorage) : Except Panic MemoryStorage :=
  let ms := if isEmptyHardState m.hardState then ms else ms.setHardState m.hardState
  ms.write m.toLogWrite

/-- `Ready` in `AsyncStorageWrites` mode: what to send, to write and to apply. -/
structure Ready where
  state : Option StateType := none
  hardState : HardState := {}
  entries : List Entry := []
  snapshot : Option Snapshot := none
  committedEntries : List Entry := []
  mustSync : Bool := false
  messages : List Message := []
  append : Option StorageAppend := none
  apply : Option StorageApply := none
  deriving DecidableEq, Repr

/-- `RawNode`, with `asyncStorageWrites` set. -/
structure RawNode where
  raft : RaftNode
  prevSoftSt : StateType := .follower
  prevHardSt : HardState := {}

namespace RawNode

section Readies

variable [Codec]

/-- `NewRawNode`. -/
def new (env : Env) (c : Settings) (storage : MemoryStorage) : Except Panic RawNode := do
  let raft ← RaftNode.newRaft env c storage
  return { raft, prevSoftSt := raft.state, prevHardSt := raft.hardState }

/-- `MustSync`. -/
def mustSync (st prevst : HardState) (entsnum : Nat) : Bool :=
  entsnum != 0 || st.vote != prevst.vote || st.term != prevst.term || st.lead != prevst.lead ||
    st.leadEpoch != prevst.leadEpoch || st.commit != prevst.commit

/-- `needStorageAppendRespMsg`. -/
def needStorageAppendRespMsg (w : LogWrite) : Bool := w.snapshot.isSome || !w.entries.isEmpty

/-- `newStorageAppendRespMsg`. -/
def newStorageAppendRespMsg (id : PeerID) (w : LogWrite) : Message where
  type := .storageAppendResp
  dst := id
  src := LocalAppendThread
  logTerm := if needStorageAppendRespMsg w then w.term else 0
  index := w.index
  snapshot := w.snapshot

/-- `newStorageApplyRespMsg`. -/
def newStorageApplyRespMsg (id : PeerID) (ents : List Entry) : Message where
  type := .storageApplyResp
  dst := id
  src := LocalApplyThread
  entries := ents

/-- The hard state of a Ready: empty when nothing changed. -/
def nextHardState (rn : RawNode) : HardState :=
  if rn.raft.hardState = rn.prevHardSt then {} else rn.raft.hardState

/-- `newStorageAppendMsg`. -/
def newStorageAppendMsg (rn : RawNode) : StorageAppend :=
  let w := rn.raft.raftLog.nextWrite
  { toLogWrite := w
    hardState := rn.nextHardState
    responses := rn.raft.msgsAfterAppend ++
      if needStorageAppendRespMsg w then [newStorageAppendRespMsg rn.raft.id w] else [] }

/-- `needStorageAppendMsg`. -/
def needStorageAppendMsg (rn : RawNode) : Bool :=
  let w := rn.raft.raftLog.nextWrite
  !w.entries.isEmpty || !isEmptyHardState rn.nextHardState || w.snapshot.isSome ||
    !rn.raft.msgsAfterAppend.isEmpty

/-- `readyWithoutAccept`. -/
def readyWithoutAccept (rn : RawNode) : Except Panic Ready := do
  let r := rn.raft
  let committedEntries ← r.raftLog.nextCommittedEnts false
  return {
    state := if r.state = rn.prevSoftSt then none else some r.state
    hardState := rn.nextHardState
    entries := r.raftLog.nextUnstableEnts
    snapshot := r.raftLog.nextUnstableSnapshot
    committedEntries
    mustSync := mustSync r.hardState rn.prevHardSt r.raftLog.nextUnstableEnts.length
    messages := r.msgs
    append := if rn.needStorageAppendMsg then some rn.newStorageAppendMsg else none
    apply := if committedEntries.isEmpty then none
      else some { entries := committedEntries
                  response := newStorageApplyRespMsg r.id committedEntries } }

/-- The last part of `acceptReady`: the entries handed out are being applied. -/
def acceptApplying (l : RaftLog) (ents : List Entry) : Except Panic RaftLog :=
  match ents.getLast? with
  | none => return l
  | some e => l.acceptApplying e.index (entsSize ents) false

/-- `acceptReady`. -/
def acceptReady (rn : RawNode) (rd : Ready) : Except Panic RawNode := do
  let raftLog ← acceptApplying rn.raft.raftLog.acceptUnstable rd.committedEntries
  return {
    raft := { rn.raft with msgs := [], msgsAfterAppend := [], raftLog }
    prevSoftSt := rd.state.getD rn.prevSoftSt
    prevHardSt := if isEmptyHardState rd.hardState then rn.prevHardSt else rd.hardState }

/-- `RawNode.Ready`. -/
def ready (rn : RawNode) : Except Panic (Ready × RawNode) := do
  let rd ← rn.readyWithoutAccept
  return (rd, ← rn.acceptReady rd)

end Readies

end RawNode

end Cockroach.Raft
