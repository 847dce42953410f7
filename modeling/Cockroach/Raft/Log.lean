import Cockroach.Raft.Storage

/-!
# The raft log (`log.go`)

`raftLog` joins the entries in stable storage with the suffix in `unstable` and
keeps the three cursors `applied ≤ applying ≤ committed`. The storage is shared
with the append thread, which writes it behind the back of the log.
-/

namespace Cockroach.Raft

/-- `noLimit`. -/
def noLimit : Nat := 2 ^ 64 - 1

/-- `raftLog`. -/
structure RaftLog where
  storage : MemoryStorage := {}
  unstable : Unstable := {}
  committed : Nat := 0
  applying : Nat := 0
  applied : Nat := 0
  maxApplyingEntsSize : Nat := noLimit
  applyingEntsSize : Nat := 0
  applyingEntsPaused : Bool := false
  deriving DecidableEq, Repr, Inhabited

namespace RaftLog

variable (l : RaftLog)

/-- `newLogWithSize`. -/
def newLogWithSize (storage : MemoryStorage) (maxApplyingEntsSize : Nat) :
    Except Panic RaftLog := do
  let firstIndex := storage.firstIndex
  let lastIndex := storage.lastIndex
  match storage.term lastIndex with
  | .error _ => throw .lastTerm
  | .ok lastTerm =>
    return {
      storage
      unstable := Unstable.new ⟨lastTerm, lastIndex⟩
      maxApplyingEntsSize
      committed := firstIndex - 1
      applying := firstIndex - 1
      applied := firstIndex - 1 }

/-- `raftLog.accTerm`. -/
def accTerm : Nat := l.unstable.term

/-- `raftLog.firstIndex`. -/
def firstIndex : Nat :=
  match l.unstable.maybeFirstIndex with
  | some i => i
  | none => l.storage.firstIndex

/-- `raftLog.lastIndex`. -/
def lastIndex : Nat := l.unstable.lastIndex

/-- `raftLog.term`. -/
def term (i : Nat) : Except StorageErr Nat :=
  match l.unstable.maybeTerm i with
  | some t => .ok t
  | none =>
    -- The term at `firstIndex - 1` is kept for matching purposes.
    if i + 1 < l.firstIndex then .error .compacted
    else if i > l.lastIndex then .error .unavailable
    else l.storage.term i

/-- `raftLog.matchTerm`. -/
def matchTerm (id : EntryID) : Bool :=
  match l.term id.index with
  | .ok t => t == id.term
  | .error _ => false

/-- `raftLog.lastEntryID`. -/
def lastEntryID : Except Panic EntryID :=
  match l.term l.lastIndex with
  | .ok t => .ok ⟨t, l.lastIndex⟩
  | .error _ => .error .lastTerm

/-- `raftLog.isUpToDate`. -/
def isUpToDate (their : EntryID) : Except Panic Bool := do
  let our ← l.lastEntryID
  return their.term > our.term || their.term == our.term && their.index ≥ our.index

/-- The loop of `raftLog.match`, with the last matching index so far. -/
def matchLoop (l : RaftLog) : Nat → List Entry → Nat
  | m, [] => m
  | m, e :: es => if l.matchTerm (pbEntryID e) then l.matchLoop e.index es else m

/-- `raftLog.match`. -/
def matchSlice (s : LogSlice) : Option Nat :=
  if l.matchTerm s.prev then some (l.matchLoop s.prev.index s.entries) else none

/-- `raftLog.maybeAppend`; `none` is the result `false`. -/
def maybeAppend (a : LogSlice) : Except Panic (Option RaftLog) := do
  match l.matchSlice a with
  | none => return none
  | some m =>
    -- Fast-forward the appended log slice to the last matching entry.
    let a := a.forward m
    match a.entries with
    | [] => return some l
    | e :: _ =>
      assertTrue (l.committed < e.index) .appendBelowCommit
      return (← l.unstable.truncateAndAppend a).map fun u => { l with unstable := u }

/-- `raftLog.append`; `none` is the result `false`. -/
def append (a : LogSlice) : Option RaftLog :=
  (l.unstable.append a).map fun u => { l with unstable := u }

/-- `raftLog.findConflictByTerm`. -/
def findConflictByTerm (l : RaftLog) (term : Nat) : Nat → Nat × Nat
  | 0 => (0, 0)
  | i + 1 =>
    match l.term (i + 1) with
    | .error _ => (i + 1, 0)
    | .ok ourTerm => if ourTerm ≤ term then (i + 1, ourTerm) else l.findConflictByTerm term i

/-- `raftLog.nextUnstableEnts`. -/
def nextUnstableEnts : List Entry := l.unstable.nextEntries

/-- `raftLog.nextUnstableSnapshot`. -/
def nextUnstableSnapshot : Option Snapshot := l.unstable.nextSnapshot

/-- `raftLog.hasNextOrInProgressSnapshot`. -/
def hasNextOrInProgressSnapshot : Bool := l.unstable.snapshot.isSome

/-- `raftLog.snapshot`. `MemoryStorage.Snapshot` never fails. -/
def snapshot : Snapshot := l.unstable.snapshot.getD l.storage.snapshot

/-- `raftLog.maxAppliableIndex`. -/
def maxAppliableIndex (allowUnstable : Bool) : Nat :=
  if allowUnstable then l.committed else min l.committed l.unstable.prev.index

/-- `raftLog.mustCheckOutOfBounds`. -/
def mustCheckOutOfBounds (lo hi : Nat) : Except Panic (Option StorageErr) := do
  assertTrue (lo ≤ hi) .sliceOutOfBounds
  let fi := l.firstIndex
  if lo < fi then return some .compacted
  let length := l.lastIndex + 1 - fi
  assertTrue (hi ≤ fi + length) .sliceOutOfBounds
  return none

section Reads

variable [Codec] (l : RaftLog)

/-- `raftLog.slice`. The outer layer is a panic, the inner one the returned
error. -/
def slice (lo hi maxSize : Nat) : Except Panic (Except StorageErr (List Entry)) := do
  match ← l.mustCheckOutOfBounds lo hi with
  | some err => return .error err
  | none =>
    if lo = hi then return .ok []
    if lo > l.unstable.prev.index then
      return .ok (limitSize maxSize (← l.unstable.slice lo hi))
    let cut := min hi (l.unstable.prev.index + 1)
    match ← l.storage.entries lo cut maxSize with
    | .error .compacted => return .error .compacted
    | .error _ => throw .entriesUnavailable
    | .ok ents =>
      if hi ≤ l.unstable.prev.index + 1 then return .ok ents
      -- The slice from storage may have reached the size limit already.
      if ents.length < cut - lo then return .ok ents
      let size := entsSize ents
      if size ≥ maxSize then return .ok ents
      let unstable := limitSize (maxSize - size)
        (← l.unstable.slice (l.unstable.prev.index + 1) hi)
      -- The first unstable entry alone may exceed the limit.
      if unstable.length = 1 ∧ size + entsSize unstable > maxSize then return .ok ents
      return .ok (ents ++ unstable)

/-- `raftLog.entries`. -/
def entries (i maxSize : Nat) : Except Panic (Except StorageErr (List Entry)) :=
  if i > l.lastIndex then return .ok []
  else l.slice i (l.lastIndex + 1) maxSize

/-- `raftLog.nextCommittedEnts`. -/
def nextCommittedEnts (allowUnstable : Bool) : Except Panic (List Entry) := do
  if l.applyingEntsPaused then return []
  if l.hasNextOrInProgressSnapshot then return []
  let lo := l.applying + 1
  let hi := l.maxAppliableIndex allowUnstable + 1
  if lo ≥ hi then return []
  let maxSize := l.maxApplyingEntsSize - l.applyingEntsSize
  assertTrue (0 < maxSize) .applyingSizeNotPositive
  match ← l.slice lo hi maxSize with
  | .error _ => throw .unappliedEntries
  | .ok ents => return ents

end Reads

/-- `raftLog.commitTo`. -/
def commitTo (mark : LogMark) : Except Panic RaftLog := do
  if l.committed < mark.index then
    assertTrue (mark.index ≤ l.lastIndex) .commitOutOfRange
    return { l with committed := mark.index }
  return l

/-- `raftLog.appliedTo`. -/
def appliedTo (i size : Nat) : Except Panic RaftLog := do
  assertTrue (i ≤ l.committed ∧ l.applied ≤ i) .appliedOutOfRange
  let applyingEntsSize := l.applyingEntsSize - size
  return { l with
    applied := i
    applying := max l.applying i
    applyingEntsSize
    applyingEntsPaused := applyingEntsSize ≥ l.maxApplyingEntsSize }

/-- `raftLog.acceptApplying`. -/
def acceptApplying (i size : Nat) (allowUnstable : Bool) : Except Panic RaftLog := do
  assertTrue (i ≤ l.committed) .applyingOutOfRange
  let applyingEntsSize := l.applyingEntsSize + size
  return { l with
    applying := i
    applyingEntsSize
    applyingEntsPaused :=
      applyingEntsSize ≥ l.maxApplyingEntsSize || i < l.maxAppliableIndex allowUnstable }

/-- `raftLog.stableTo`. -/
def stableTo (mark : LogMark) : Except Panic RaftLog := do
  return { l with unstable := ← l.unstable.stableTo mark }

/-- `raftLog.stableSnapTo`. -/
def stableSnapTo (i : Nat) : RaftLog :=
  { l with unstable := l.unstable.stableSnapTo i }

/-- `raftLog.acceptUnstable`. -/
def acceptUnstable : RaftLog :=
  { l with unstable := l.unstable.acceptInProgress }

/-- `raftLog.restore`; `none` is the result `false`. -/
def restore (s : TermSnapshot) : Option RaftLog :=
  (l.unstable.restore s).map fun u => { l with unstable := u, committed := s.lastEntryID.index }

/-! ## What the functions return -/

section Returned

open Lib

variable {l l' : RaftLog} {mark : LogMark} {a : LogSlice}

theorem commitTo_eq_ok (h : l.commitTo mark = .ok l') :
    l' = l ∨ l.committed < mark.index ∧ mark.index ≤ l.lastIndex ∧
      l' = { l with committed := mark.index } := by
  unfold commitTo at h
  split at h
  · obtain ⟨_, hle, h⟩ := bind_eq_ok.mp h
    cases h
    exact .inr ⟨‹_›, assertTrue_eq_ok.mp hle, rfl⟩
  · cases h
    exact .inl rfl

theorem appliedTo_eq_ok {i size : Nat} (h : l.appliedTo i size = .ok l') :
    l.applied ≤ i ∧ i ≤ l.committed ∧ ∃ n applying paused, l' = { l with
      applied := i, applying, applyingEntsSize := n, applyingEntsPaused := paused } := by
  obtain ⟨_, hle, h⟩ := bind_eq_ok.mp h
  obtain ⟨hcommitted, happlied⟩ := assertTrue_eq_ok.mp hle
  cases h
  exact ⟨happlied, hcommitted, _, _, _, rfl⟩

theorem append_eq_some (h : l.append a = some l') : l' = { l with unstable :=
      { l.unstable with term := a.term, entries := l.unstable.entries ++ a.entries } } := by
  obtain ⟨u, hu, rfl⟩ := Option.map_eq_some_iff.mp h
  unfold Unstable.append at hu
  split_ifs at hu
  cases hu
  rfl

theorem stableTo_eq_ok (h : l.stableTo mark = .ok l') :
    l' = l ∨ mark.term = l.accTerm ∧ l.unstable.prev.index < mark.index ∧
      mark.index ≤ l.lastIndex ∧ l' = { l with unstable :=
        { l.unstable with
          toLogSlice := l.unstable.toLogSlice.forward mark.index
          entryInProgress := max l.unstable.entryInProgress mark.index } } := by
  obtain ⟨u, hu, h⟩ := bind_eq_ok.mp h
  cases h
  unfold Unstable.stableTo at hu
  split at hu
  · cases hu
    exact .inl rfl
  rename_i hterm
  split at hu
  · cases hu
    exact .inl rfl
  split at hu
  · cases hu
    exact .inl rfl
  rename_i hrange
  obtain ⟨_, -, hu⟩ := bind_eq_ok.mp hu
  cases hu
  rw [not_or, not_le, not_lt] at hrange
  exact .inr ⟨not_not.mp hterm, hrange.1, hrange.2, rfl⟩

theorem restore_eq_some {s : TermSnapshot} (h : l.restore s = some l') : ∃ u,
    l' = { l with unstable := u, committed := s.lastIndex } ∧ u.snapshot = some s.snap ∧
      u.snapshotInProgress = false := by
  obtain ⟨u, hu, rfl⟩ := Option.map_eq_some_iff.mp h
  unfold Unstable.restore at hu
  split_ifs at hu
  cases hu
  exact ⟨_, rfl, rfl, rfl⟩

end Returned

end RaftLog

end Cockroach.Raft
