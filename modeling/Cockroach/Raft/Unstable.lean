import Cockroach.Raft.Panic

/-!
# Log slices and the unstable log (`types.go`, `log_unstable.go`)

`unstable` holds the suffix of the raft log that storage has not acknowledged:
a pending snapshot, a slice of entries, and how much of both has been handed to
storage already.
-/

namespace Cockroach.Raft

/-- `entryID`. -/
structure EntryID where
  term : Nat := 0
  index : Nat := 0
  deriving DecidableEq, Repr, Inhabited

/-- `pbEntryID`. -/
def pbEntryID (e : Entry) : EntryID := ⟨e.term, e.index⟩

/-- `LogMark`. -/
structure LogMark where
  term : Nat := 0
  index : Nat := 0
  deriving DecidableEq, Repr, Inhabited

/-- `logSlice`. -/
structure LogSlice where
  term : Nat := 0
  prev : EntryID := {}
  entries : List Entry := []
  deriving DecidableEq, Repr, Inhabited

namespace LogSlice

/-- `logSlice.lastIndex`. -/
def lastIndex (s : LogSlice) : Nat := s.prev.index + s.entries.length

/-- `logSlice.lastEntryID`. -/
def lastEntryID (s : LogSlice) : EntryID :=
  match s.entries.getLast? with
  | some e => pbEntryID e
  | none => s.prev

/-- `logSlice.termAt`. As in the source, `index` must be in
`[prev.index, lastIndex]`; every caller checks that. -/
def termAt (s : LogSlice) (index : Nat) : Nat :=
  if index = s.prev.index then s.prev.term
  else (s.entries.getD (index - s.prev.index - 1) {}).term

/-- `logSlice.forward`. As in the source, `index` must be in
`[prev.index, lastIndex]`; every caller checks that. -/
def forward (s : LogSlice) (index : Nat) : LogSlice where
  term := s.term
  prev := ⟨s.termAt index, index⟩
  entries := s.entries.drop (index - s.prev.index)

/-- The loop of `logSlice.valid`. -/
def validFrom (term : Nat) : EntryID → List Entry → Bool
  | prev, [] => prev.term ≤ term
  | prev, e :: es =>
    prev.term ≤ e.term && e.index == prev.index + 1 && validFrom term (pbEntryID e) es

/-- `logSlice.valid`: no error is returned. -/
def valid (s : LogSlice) : Bool := validFrom s.term s.prev s.entries

end LogSlice

/-- `snapshot`: a state machine snapshot under the term of the leader that
observed it. -/
structure TermSnapshot where
  term : Nat := 0
  snap : Snapshot := {}
  deriving DecidableEq, Repr, Inhabited

namespace TermSnapshot

/-- `snapshot.lastIndex`. -/
def lastIndex (s : TermSnapshot) : Nat := s.snap.metadata.index

/-- `snapshot.lastEntryID`. -/
def lastEntryID (s : TermSnapshot) : EntryID := ⟨s.snap.metadata.term, s.snap.metadata.index⟩

/-- `snapshot.mark`. -/
def mark (s : TermSnapshot) : LogMark := ⟨s.term, s.snap.metadata.index⟩

/-- `snapshot.valid`: no error is returned. -/
def valid (s : TermSnapshot) : Bool := s.snap.metadata.term ≤ s.term

end TermSnapshot

/-- `unstable`. -/
structure Unstable extends LogSlice where
  snapshot : Option Snapshot := none
  snapshotInProgress : Bool := false
  entryInProgress : Nat := 0
  deriving DecidableEq, Repr, Inhabited

namespace Unstable

variable (u : Unstable)

/-- `newUnstable`. -/
def new (last : EntryID) : Unstable where
  term := last.term
  prev := last
  entryInProgress := last.index

/-- `unstable.maybeFirstIndex`. -/
def maybeFirstIndex : Option Nat := u.snapshot.map fun s => s.metadata.index + 1

/-- `unstable.maybeTerm`. -/
def maybeTerm (i : Nat) : Option Nat :=
  if i < u.prev.index ∨ i > u.lastIndex then none else some (u.termAt i)

/-- `unstable.nextEntries`. -/
def nextEntries : List Entry :=
  if u.entryInProgress = u.lastIndex then []
  else u.entries.drop (u.entryInProgress - u.prev.index)

/-- `unstable.nextSnapshot`. -/
def nextSnapshot : Option Snapshot :=
  if u.snapshotInProgress then none else u.snapshot

/-- `unstable.acceptInProgress`. -/
def acceptInProgress : Unstable :=
  { u with
    snapshotInProgress := u.snapshot.isSome
    entryInProgress := u.lastIndex }

/-- `unstable.stableTo`. -/
def stableTo (mark : LogMark) : Except Panic Unstable := do
  if mark.term ≠ u.term then
    -- The last accepted term has changed.
    return u
  if u.snapshot.map (·.metadata.index) = some mark.index then
    -- The index is the one of the pending snapshot, not of an entry.
    return u
  if mark.index ≤ u.prev.index ∨ mark.index > u.lastIndex then
    return u
  assertTrue (u.snapshot = none) .ackedBeforeSnapshot
  return { u with
    toLogSlice := u.toLogSlice.forward mark.index
    entryInProgress := max u.entryInProgress mark.index }

/-- `unstable.stableSnapTo`. -/
def stableSnapTo (i : Nat) : Unstable :=
  if u.snapshot.map (·.metadata.index) = some i then
    { u with snapshotInProgress := false, snapshot := none }
  else u

/-- `unstable.restore`; `none` is the result `false`. -/
def restore (s : TermSnapshot) : Option Unstable :=
  if s.term ≤ u.term ∧ s.lastIndex < u.lastIndex then none
  else some
    { term := max u.term s.term
      prev := s.lastEntryID
      entries := []
      snapshot := some s.snap
      snapshotInProgress := false
      entryInProgress := s.lastEntryID.index }

/-- `unstable.append`; `none` is the result `false`. -/
def append (a : LogSlice) : Option Unstable :=
  if a.term < u.term then none
  else if a.prev ≠ u.lastEntryID then none
  else some { u with term := a.term, entries := u.entries ++ a.entries }

/-- `unstable.truncateAndAppend`; `none` is the result `false`. -/
def truncateAndAppend (a : LogSlice) : Except Panic (Option Unstable) := do
  if a.term < u.term then return none
  let last := u.lastEntryID
  if a.prev = last then
    return some { u with term := a.term, entries := u.entries ++ a.entries }
  -- A gap, or an entry of another term at the end of the log.
  if a.prev.index ≥ last.index then return none
  -- Within one leader term the log is append-only.
  if a.term = u.term then return none
  assertTrue (∀ s ∈ u.snapshot, s.metadata.index ≤ a.prev.index) .appendBeforeSnapshot
  let slice : LogSlice :=
    if a.prev.index ≤ u.prev.index then a
    else
      { u.toLogSlice with
        term := a.term
        entries := u.entries.take (a.prev.index - u.prev.index) ++ a.entries }
  return some { u with
    toLogSlice := slice
    entryInProgress := min u.entryInProgress a.prev.index }

/-- `unstable.slice`, with the checks of `mustCheckOutOfBounds`. -/
def slice (lo hi : Nat) : Except Panic (List Entry) := do
  assertTrue (lo ≤ hi) .sliceOutOfBounds
  assertTrue (u.prev.index < lo ∧ hi ≤ u.lastIndex + 1) .sliceOutOfBounds
  return (u.entries.drop (lo - u.prev.index - 1)).take (hi - lo)

end Unstable

end Cockroach.Raft
