import Cockroach.Lib.Outcome
import Cockroach.Raft.Pb

/-!
# Panics of the raft package

Every place where the modelled code panics, one constructor a place (or a
family of places with one meaning). A modelled function runs in `Except Panic`:
it returns exactly when the Go function does.
-/

namespace Cockroach.Raft

open Lib

/-- The `assertTrue` calls of the fortification protocol. -/
inductive FortifyAssertion
  /-- "lead epoch is set but leader is not" -/
  | leadEpochWithoutLead
  /-- "epochs in store liveness shouldn't regress" -/
  | epochRegressed
  /-- "should not be changing terms when supporting a fortified leader; leader exempted" -/
  | resetWhileSupporting
  /-- "should not be supporting a fortified leader when becoming pre-candidate; leader exempted" -/
  | preCandidateWhileSupporting
  /-- "can only defortify at current term if told by the leader or if fortification support has
  expired" -/
  | deFortify
  /-- "only leaders can fortify" -/
  | bcastFortifyNotLeader
  /-- "leaders should locally fortify without sending a message" -/
  | handleFortifyNotFollower
  /-- "only the leader should send fortification requests" -/
  | handleFortifyNotLead
  /-- "only leaders should be handling fortification responses" -/
  | handleFortifyRespNotLeader
  deriving DecidableEq, Repr

inductive Panic
  | fortify (a : FortifyAssertion)
  /-- "tickElection called by leader" -/
  | tickElectionByLeader
  /-- "tickHeartbeat called by non-leader" -/
  | tickHeartbeatByNonLeader
  /-- "only the leader can transfer leadership" -/
  | transferByNonLeader
  /-- "term should be set when sending %s" -/
  | sendWithoutTerm (t : MessageType)
  /-- "term should not be set when sending %s (was %d)" -/
  | sendWithTerm (t : MessageType) (term : Nat)
  /-- "message should not be self-addressed when sending %s" -/
  | sendToSelf (t : MessageType)
  /-- "need non-empty snapshot" -/
  | emptySnapshot
  /-- "%x leader could not append to its log" -/
  | leaderCannotAppend
  /-- "invalid transition [...]" -/
  | invalidTransition
  /-- "empty entry was dropped" -/
  | emptyEntryDropped
  /-- "%x stepped empty MsgProp" -/
  | emptyProposal
  /-- A configuration change entry whose data does not unmarshal. -/
  | unmarshal
  /-- "match(%d) is out of range [lastIndex(%d)]. ..." -/
  | matchOutOfRange
  /-- "%x attempted to restore snapshot in state %s" -/
  | restoreNotFollower
  /-- "unable to restore config %+v: %s", and a configuration that differs from its `ConfState`. -/
  | restoreConfig
  /-- A configuration change that `applyConfChange` cannot carry out. -/
  | applyConfChange
  /-- "%x state.commit %d is out of range [%d, %d]" -/
  | loadStateOutOfRange
  /-- A configuration that `Config.validate` refuses. -/
  | invalidConfig
  /-- "error scanning unapplied entries [%d, %d): %v" -/
  | scanUnapplied
  /-- "entry %d is already committed [committed(%d)]" -/
  | appendBelowCommit
  /-- "appending at %+v before snapshot %s" -/
  | appendBeforeSnapshot
  /-- "mark %+v acked earlier than the snapshot(in-progress=%t): %s" -/
  | ackedBeforeSnapshot
  /-- "applying entry size (%d-%d)=%d not positive" -/
  | applyingSizeNotPositive
  /-- "unexpected error when getting unapplied entries (%v)" -/
  | unappliedEntries
  /-- "tocommit(%d) is out of range [lastIndex(%d)]. ..." -/
  | commitOutOfRange
  /-- "applied(%d) is out of range [prevApplied(%d), committed(%d)]" -/
  | appliedOutOfRange
  /-- "applying(%d) is out of range [prevApplying(%d), committed(%d)]" -/
  | applyingOutOfRange
  /-- "unexpected error when getting the last term at %d: %v" -/
  | lastTerm
  /-- "invalid slice %d > %d" and "slice[%d,%d) out of bound ..." -/
  | sliceOutOfBounds
  /-- "entries[%d:%d) is unavailable from storage" -/
  | entriesUnavailable
  /-- An index outside a slice, in `termAt`, `forward` or a storage read. -/
  | indexOutOfRange
  /-- "entries' hi(%d) is out of bound lastindex(%d)", "compact %d is out of bound ...",
  "snapshot %d is out of bound ..." and "missing log entry ..." of `MemoryStorage`. -/
  | storageOutOfBounds
  /-- A write of a snapshot that `MemoryStorage.ApplySnapshot` refuses with `ErrSnapOutOfDate`:
  raft does not panic, but the application cannot go on. -/
  | snapOutOfDate
  /-- The loop that sends appends while there are some to send does not end. -/
  | sendLoop
  /-- "cannot add into a Full inflights" -/
  | inflightsFull
  /-- A nil `*Progress` is dereferenced. -/
  | nilProgress
  /-- An error of `Storage.Snapshot` other than `ErrSnapshotTemporarilyUnavailable`. -/
  | snapshotError
  deriving DecidableEq, Repr

/-- `assertTrue` and the guarded `logger.Panicf` calls. -/
def assertTrue (c : Prop) [Decidable c] (p : Panic) : Except Panic Unit :=
  if c then pure () else throw p

variable {c : Prop} {p : Panic}

theorem sat_assertTrue [Decidable c] {E : Panic → Prop}
    {Q : Unit → Prop} (hp : ¬ c → E p) (hc : c → Q ()) : Sat (assertTrue c p) E Q := by
  unfold assertTrue
  exact Sat.ite hc hp

/-- The rule of an assertion in front of more code. -/
theorem sat_assert_bind {β : Type} [Decidable c] {E : Panic → Prop}
    {f : Unit → Except Panic β} {Q : β → Prop} (hp : ¬ c → E p) (hf : c → Sat (f ()) E Q) :
    Sat (assertTrue c p >>= f) E Q :=
  Sat.bind (sat_assertTrue hp fun h => h) fun _ h => hf h

theorem assertTrue_of [Decidable c] (h : c) (p : Panic) : assertTrue c p = .ok () := if_pos h

@[simp] theorem assertTrue_eq_ok [Decidable c] {u : Unit} : assertTrue c p = .ok u ↔ c := by
  by_cases h : c <;> simp [assertTrue, h, pure, Except.pure, throw, throwThe, MonadExceptOf.throw]

end Cockroach.Raft
