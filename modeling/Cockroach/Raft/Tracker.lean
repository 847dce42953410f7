import Cockroach.Raft.Panic
import Cockroach.Raft.Quorum

/-!
# Replication progress (`pkg/raft/tracker`)

In-flight message windows, the leader's view of one follower, the progress map
and the vote tally. A Go map from peers is an extensional tree map: it is read
by lookup, and `Visit` walks its keys in increasing order.
-/

namespace Cockroach.Raft

/-- `tracker.inflight`. -/
structure Inflight where
  index : Nat := 0
  bytes : UInt64 := 0
  deriving DecidableEq, Repr, Inhabited

/-- `tracker.Inflights`: a ring buffer of in-flight messages. -/
structure Inflights where
  start : Nat := 0
  count : Nat := 0
  bytes : UInt64 := 0
  size : Nat := 0
  maxBytes : UInt64 := 0
  buffer : List Inflight := []
  deriving DecidableEq, Repr, Inhabited

namespace Inflights

/-- `NewInflights`. -/
def new (size : Nat) (maxBytes : UInt64) : Inflights := { size, maxBytes }

/-- `Inflights.Full`. -/
def full (i : Inflights) : Bool :=
  i.count == i.size || (i.maxBytes != 0 && i.bytes ≥ i.maxBytes)

/-- `Inflights.grow`. -/
def grow (i : Inflights) : Inflights :=
  let doubled := i.buffer.length * 2
  let newSize := if doubled = 0 then 1 else if doubled > i.size then i.size else doubled
  { i with buffer := i.buffer ++ List.replicate (newSize - i.buffer.length) {} }

/-- `Inflights.Add`. -/
def add (i : Inflights) (index : Nat) (bytes : UInt64) : Except Panic Inflights := do
  assertTrue (i.full = false) .inflightsFull
  let next := i.start + i.count
  let next := if next ≥ i.size then next - i.size else next
  let i := if next ≥ i.buffer.length then i.grow else i
  assertTrue (next < i.buffer.length) .indexOutOfRange
  return { i with
    buffer := i.buffer.set next { index, bytes }
    count := i.count + 1
    bytes := i.bytes + bytes }

/-- The loop of `FreeLE`: how many of the `left` oldest messages end at or below
`upTo`, with their bytes and the ring position after them. -/
def freeLoop (i : Inflights) (upTo : Nat) : Nat → Nat → Nat → UInt64 → Nat × UInt64 × Nat
  | 0, idx, n, bytes => (n, bytes, idx)
  | left + 1, idx, n, bytes =>
    let e := i.buffer.getD idx {}
    if upTo < e.index then (n, bytes, idx)
    else
      let idx := idx + 1
      let idx := if idx ≥ i.size then idx - i.size else idx
      freeLoop i upTo left idx (n + 1) (bytes + e.bytes)

/-- `Inflights.FreeLE`. -/
def freeLE (i : Inflights) (upTo : Nat) : Inflights :=
  if i.count = 0 ∨ upTo < (i.buffer.getD i.start {}).index then i
  else
    let (n, bytes, idx) := freeLoop i upTo i.count i.start 0 0
    let count := i.count - n
    { i with
      count
      bytes := i.bytes - bytes
      start := if count = 0 then 0 else idx }

/-- `Inflights.reset`. -/
def reset (i : Inflights) : Inflights := { i with start := 0, count := 0, bytes := 0 }

end Inflights

/-- `tracker.StateType`. -/
inductive ProgressState
  | probe
  | replicate
  | snapshot
  deriving DecidableEq, Repr, Inhabited

/-- `tracker.Progress`: the progress of one follower in the view of the leader. -/
structure Progress where
  matchIdx : Nat := 0
  next : Nat := 0
  sentCommit : Nat := 0
  matchCommit : Nat := 0
  state : ProgressState := .probe
  pendingSnapshot : Nat := 0
  recentActive : Bool := false
  msgAppProbesPaused : Bool := false
  inflights : Inflights := {}
  isLearner : Bool := false
  deriving DecidableEq, Repr, Inhabited

namespace Progress

variable (pr : Progress)

/-- `Progress.ResetState`. -/
def resetState (state : ProgressState) : Progress :=
  { pr with
    msgAppProbesPaused := false
    pendingSnapshot := 0
    state
    inflights := pr.inflights.reset }

/-- `Progress.BecomeProbe`. -/
def becomeProbe : Progress :=
  let next :=
    if pr.state = .snapshot then max (pr.matchIdx + 1) (pr.pendingSnapshot + 1)
    else pr.matchIdx + 1
  { pr.resetState .probe with next, sentCommit := min pr.sentCommit (next - 1) }

/-- `Progress.BecomeReplicate`. -/
def becomeReplicate : Progress :=
  { pr.resetState .replicate with next := pr.matchIdx + 1 }

/-- `Progress.BecomeSnapshot`. -/
def becomeSnapshot (snapshoti : Nat) : Progress :=
  { pr.resetState .snapshot with
    pendingSnapshot := snapshoti
    next := snapshoti + 1
    sentCommit := snapshoti }

/-- `Progress.SentEntries`. -/
def sentEntries (entries bytes : Nat) : Except Panic Progress := do
  if pr.state = .replicate ∧ entries > 0 then
    let next := pr.next + entries
    let inflights ← pr.inflights.add (next - 1) (.ofNat bytes)
    return { pr with next, inflights, msgAppProbesPaused := true }
  else
    return { pr with msgAppProbesPaused := true }

/-- `Progress.CanSendEntries`. -/
def canSendEntries (lastIndex : Nat) : Bool :=
  pr.next ≤ lastIndex && (pr.state = .probe || !pr.inflights.full)

/-- `Progress.CanBumpCommit`. -/
def canBumpCommit (index : Nat) : Bool :=
  index > pr.sentCommit && pr.sentCommit < pr.next - 1

/-- `Progress.IsFollowerCommitStale`. -/
def isFollowerCommitStale (index : Nat) : Bool :=
  index > pr.matchCommit && pr.matchCommit + 1 < pr.next

/-- `Progress.MaybeUpdateSentCommit`. -/
def maybeUpdateSentCommit (commit : Nat) : Progress :=
  if commit > pr.sentCommit then { pr with sentCommit := commit } else pr

/-- `Progress.MaybeUpdate`. -/
def maybeUpdate (n : Nat) : Bool × Progress :=
  if n ≤ pr.matchIdx then (false, pr)
  else (true, { pr with matchIdx := n, next := max pr.next (n + 1) })

/-- `Progress.MaybeUpdateMatchCommit`. -/
def maybeUpdateMatchCommit (commit : Nat) : Progress :=
  if commit > pr.matchCommit then
    { pr with matchCommit := commit, sentCommit := max pr.sentCommit commit }
  else pr

/-- `Progress.MaybeDecrTo`. -/
def maybeDecrTo (rejected matchHint : Nat) : Bool × Progress :=
  if pr.state = .replicate then
    if rejected ≤ pr.matchIdx then (false, pr)
    else
      let next := pr.matchIdx + 1
      (true, { pr with next, sentCommit := min pr.sentCommit (next - 1) })
  else if pr.next - 1 ≠ rejected then (false, pr)
  else
    let next := max (min rejected (matchHint + 1)) (pr.matchIdx + 1)
    (true, { pr with
      next
      sentCommit := min pr.sentCommit (next - 1)
      msgAppProbesPaused := false })

/-- `Progress.ShouldSendMsgApp`. -/
def shouldSendMsgApp (last commit : Nat) (advanceCommit : Bool) : Bool :=
  match pr.state with
  | .probe => !pr.msgAppProbesPaused
  | .replicate =>
    if pr.canSendEntries last then true
    else if pr.matchIdx < last && !pr.msgAppProbesPaused then true
    else if pr.canBumpCommit commit then true
    else if advanceCommit then pr.isFollowerCommitStale commit && !pr.msgAppProbesPaused
    else false
  | .snapshot => false

end Progress

/-- `tracker.ProgressMap`. -/
abbrev ProgressMap := Std.ExtTreeMap PeerID Progress

namespace ProgressMap

/-- `matchAckIndexer.AckedIndex`. -/
def ackedIndex (trk : ProgressMap) (id : PeerID) : Option Nat := (trk[id]?).map (·.matchIdx)

/-- `ProgressTracker.Committed`. -/
def committed (trk : ProgressMap) (config : Config) : Nat :=
  config.voters.committedIndex (ackedIndex trk)

/-- `ProgressTracker.QuorumActive`. -/
def quorumActive (trk : ProgressMap) (config : Config) : Bool :=
  config.voters.voteResult (fun id =>
    match trk[id]? with
    | some pr => if pr.isLearner then none else some pr.recentActive
    | none => none) = .won

end ProgressMap

/-- The votes of a `tracker.ElectionTracker`. -/
abbrev Votes := Std.ExtTreeMap PeerID Bool

namespace Votes

/-- `ElectionTracker.RecordVote`. -/
def recordVote (votes : Votes) (id : PeerID) (vote : Bool) : Votes :=
  votes.insertIfNew id vote

/-- The result of `ElectionTracker.TallyVotes`. The granted and rejected counts
are only logged. -/
def tallyVotes (votes : Votes) (config : Config) : VoteResult :=
  config.voters.voteResult fun id => votes[id]?

end Votes

end Cockroach.Raft
