import Cockroach.Lib.WriteQueue
import Cockroach.Raft.LogReads

/-!
# Asynchronous log writes

Each Ready hands the unstable entries and snapshot to a queue of writes; the
append thread performs them in order, and acknowledgements come back late, in
any order, or never. `LogInv` relates a raft log, the writes still queued and
the writes already performed to one log slice, the log as its reader sees it.
Every operation of the log keeps the relation (`LogInv.splice`,
`LogInv.restore`, `LogInv.ready`, `LogInv.execute`, `LogInv.deliver`).
-/

namespace Cockroach.Raft

open Lib Lib.WriteQueue LogSlice Option MemoryStorage Unstable
open EntryID hiding term
open List hiding getElem?_eq_some_iff

/-- The log part of a `MsgStorageAppend`: the snapshot and entries of a Ready
and the accepted term they were handed out under. -/
structure LogWrite where
  snapshot : Option Snapshot := none
  entries : List Entry := []
  term : Nat := 0
  deriving DecidableEq, Repr, Inhabited

/-- The index an acknowledgement of `w` carries, 0 when it wrote no entries. -/
def LogWrite.index (w : LogWrite) : Nat := (w.entries.getLast?.map (·.index)).getD 0

/-- The log part of what the append thread does with a `MsgStorageAppend`: the
snapshot first, then the entries. -/
def MemoryStorage.write (ms : MemoryStorage) (w : LogWrite) : Except Panic MemoryStorage := do
  match w.snapshot with
  | none => ms.append w.entries
  | some s =>
    match ms.applySnapshot s with
    | .error _ => throw .snapOutOfDate
    | .ok ms => ms.append w.entries

/-- Storage refuses only a snapshot that does not go beyond its own. -/
theorem MemoryStorage.write_refused {ms : MemoryStorage} {w : LogWrite}
    (h : ms.write w = .error .snapOutOfDate) :
    ∃ s ∈ w.snapshot, s.metadata.index ≤ ms.snapshot.metadata.index := by
  have happend : ∀ ms : MemoryStorage, ms.append w.entries ≠ .error .snapOutOfDate := by
    intro ms
    have hsat : Sat (ms.append w.entries) (· = .storageOutOfBounds) fun _ => True := by
      unfold append
      split
      · trivial
      · refine Sat.ite (fun _ => trivial) fun _ => ?_
        exact sat_assert_bind (fun _ => rfl) fun _ => trivial
    intro herr
    cases hsat.stop herr
  unfold write at h
  split at h
  · exact absurd h (happend ms)
  · next s hs =>
      refine ⟨s, hs, ?_⟩
      by_contra hlt
      unfold applySnapshot at h
      rw [if_neg hlt] at h
      exact absurd h (happend _)

namespace RaftLog

/-- What a Ready hands to the append thread. -/
def nextWrite (l : RaftLog) : LogWrite where
  snapshot := l.nextUnstableSnapshot.filter (!isEmptySnap ·)
  entries := l.nextUnstableEnts
  term := l.accTerm

theorem mem_nextWrite_snapshot {l : RaftLog} {s : Snapshot} (h : s ∈ l.nextWrite.snapshot) :
    s ∈ l.unstable.snapshot := by
  have hs : s ∈ l.unstable.nextSnapshot := (filter_eq_some_iff.mp h).1
  unfold nextSnapshot at hs
  split_ifs at hs
  · cases hs
  · exact hs

/-- The log part of `raft.appliedSnap`. -/
def appliedSnap (l : RaftLog) : Option Snapshot → Except Panic RaftLog
  | none => pure l
  | some s => (l.stableSnapTo s.metadata.index).appliedTo (max s.metadata.index l.applied) 0

/-- What `Step` does to the log with the `MsgStorageAppendResp` of `w`:
`appliedSnap`, then `stableTo`. -/
def ackWrite (l : RaftLog) (w : LogWrite) : Except Panic RaftLog := do
  let l ← l.appliedSnap w.snapshot
  if w.index ≠ 0 then l.stableTo ⟨w.term, w.index⟩ else pure l

/-- The acknowledgement of `w` is one of entries after the pending snapshot, and comes before
that of the snapshot. -/
def OvertakenBy (l : RaftLog) (w : LogWrite) : Prop :=
  w.term = l.unstable.term ∧ ∃ s ∈ l.unstable.snapshot, s.metadata.index < w.index ∧
    ∀ s' ∈ w.snapshot, s'.metadata.index ≠ s.metadata.index

end RaftLog

/-- The id a snapshot ends at. -/
def Snapshot.id (s : Snapshot) : EntryID := ⟨s.metadata.term, s.metadata.index⟩

/-- Storage holds the slice `A` up to index `k`. -/
structure MemoryStorage.HoldsTo (ms : MemoryStorage) (A : LogSlice) (k : Nat) : Prop where
  base : ms.base = A.prev
  lower : A.prev.index ≤ k
  upper : k ≤ A.lastIndex
  ents : ms.ents.take (k - A.prev.index) = A.entries.take (k - A.prev.index)

/-- What an acknowledgement of `w` would release is in storage. -/
structure LogWrite.Reached (A : LogSlice) (w : LogWrite) (ms : MemoryStorage) : Prop where
  entries : w.term = A.term → A.prev.index < w.index → ms.HoldsTo A w.index
  snapshot : ∀ s ∈ w.snapshot, s.metadata.index = A.prev.index → ms.base = A.prev

/-- What is known of every write ever handed out. -/
structure LogWrite.Bounded (A : LogSlice) (w : LogWrite) : Prop where
  term : w.term ≤ A.term
  index : w.term = A.term → w.index ≤ A.lastIndex
  snapshot : ∀ s ∈ w.snapshot, s.metadata.index ≤ A.prev.index

/-- Writes stop only on a snapshot that storage already covers. -/
abbrev refused : Panic → Prop := (· = .snapOutOfDate)

/-- `A` is the log that `l` presents, with `queue` still to be written to storage
and `done` written already. -/
structure LogInv (A : LogSlice) (l : RaftLog) (queue done : List LogWrite) : Prop where
  valid : A.valid = true
  prev_ge : A.prev.index ≤ l.unstable.prev.index
  prev_le : l.unstable.prev.index ≤ A.lastIndex
  unstable : l.unstable.toLogSlice = A.forward l.unstable.prev.index
  snapshot : ∀ s ∈ l.unstable.snapshot,
    isEmptySnap s = false ∧ s.id = A.prev ∧ l.unstable.prev.index = A.prev.index
  snapshotInProgress : l.unstable.snapshotInProgress = true → l.unstable.snapshot ≠ none
  inProgress_ge : l.unstable.prev.index ≤ l.unstable.entryInProgress
  inProgress_le : l.unstable.entryInProgress ≤ A.lastIndex
  inProgress_snap : l.unstable.snapshot ≠ none → l.unstable.snapshotInProgress = false →
    l.unstable.entryInProgress = l.unstable.prev.index
  committed_ge : A.prev.index ≤ l.committed
  committed_le : l.committed ≤ A.lastIndex
  applied_le : l.applied ≤ l.committed
  stable : l.unstable.snapshot = none →
    Settles MemoryStorage.write refused (·.HoldsTo A l.unstable.prev.index) l.storage queue
  tail : l.unstable.snapshot = none ∨ l.unstable.snapshotInProgress = true →
    Ends MemoryStorage.write refused (·.HoldsTo A l.unstable.entryInProgress) l.storage queue
  bounded : ∀ w ∈ done ++ queue, w.Bounded A
  done : ∀ w ∈ done, Settles MemoryStorage.write refused (w.Reached A) l.storage queue
  queued : Follows MemoryStorage.write refused (LogWrite.Reached A) l.storage queue

variable {lo hi maxSize : Nat}

namespace MemoryStorage.HoldsTo

variable {ms : MemoryStorage} {A b : LogSlice} {k j : Nat}

theorem mono (h : ms.HoldsTo A k) (hlo : A.prev.index ≤ j) (hj : j ≤ k) : ms.HoldsTo A j where
  base := h.base
  lower := hlo
  upper := hj.trans h.upper
  ents := by
    have := congrArg (take (j - A.prev.index)) h.ents
    simpa only [take_take, Nat.min_eq_left (Nat.sub_le_sub_right hj _)] using this

theorem splice (h : ms.HoldsTo A k) (hb : b.Attaches A) (hk : k ≤ b.prev.index)
    (hlast : b.prev.index ≤ b.lastIndex) : ms.HoldsTo (A.splice b) k where
  base := h.base
  lower := h.lower
  upper := by rw [lastIndex_splice hb]; omega
  ents := by rw [splice_prev, take_splice hb hk]; exact h.ents

/-- Storage that has just been reset to the first id of the slice. -/
theorem of_base (h : ms.base = A.prev) : ms.HoldsTo A A.prev.index where
  base := h
  lower := le_rfl
  upper := by simp [LogSlice.lastIndex]
  ents := by simp

variable (h : ms.HoldsTo A k)
include h

theorem lastIndex_le : k ≤ ms.lastIndex := by
  have hlen := congrArg length h.ents
  have := h.lower
  have := h.upper
  have hb := congrArg index h.base
  simp only [length_take, LogSlice.lastIndex, lastIndex] at *
  omega

/-- Writing the rest of the slice completes it. -/
theorem append_rest (hA : A.valid = true) :
    Sat (ms.append (A.entries.drop (k - A.prev.index))) refused (·.HoldsTo A A.lastIndex) := by
  have hlo := h.lower
  have hup := h.upper
  have hb := congrArg index h.base
  cases hd : A.entries.drop (k - A.prev.index) with
  | nil =>
    have hk : A.lastIndex = k := by
      have := drop_eq_nil_iff.mp hd
      simp only [LogSlice.lastIndex] at *
      omega
    rw [hk]
    exact h
  | cons e es =>
    -- The first entry written is the one at index `k + 1`.
    have hget : A.entries[k - A.prev.index]? = some e := by
      have := congrArg (·[0]?) hd
      simpa using this
    have hidx : e.index = k + 1 := by
      rw [(valid_iff.mp hA).1.index hget]; omega
    have hlen := h.lastIndex_le
    have hents : ms.ents.take (k - ms.base.index) = A.entries.take (k - A.prev.index) := by
      rw [hb]; exact h.ents
    have h1 : ¬ e.index + (e :: es).length - 1 < ms.firstIndex := by
      simp only [firstIndex, length_cons]; omega
    have h2 : max ms.firstIndex e.index - e.index = 0 := by
      simp only [firstIndex]; omega
    have h3 : max ms.firstIndex e.index - ms.base.index ≤ ms.ents.length + 1 := by
      simp only [firstIndex, lastIndex] at *; omega
    have h4 : max ms.firstIndex e.index - ms.base.index - 1 = k - ms.base.index := by
      simp only [firstIndex]; omega
    unfold append
    simp only [h1, if_false, h2, drop_zero]
    refine sat_assert_bind (fun hn => absurd h3 hn) fun _ => ?_
    simp only [sat_pure]
    refine ⟨h.base, by simp [LogSlice.lastIndex], le_rfl, ?_⟩
    rw [h4, hents, ← hd, take_append_drop]

/-- A read from storage at or above the base is a read of the slice. -/
theorem term_eq {i : Nat} (hlo : A.prev.index ≤ i) (hi : i ≤ k) :
    ms.term i = .ok (A.termAt i) := by
  have hb := congrArg index h.base
  have hup := h.upper
  have h1 : ¬ i < ms.base.index := by omega
  unfold term LogSlice.termAt
  rw [if_neg h1]
  by_cases h2 : i = A.prev.index
  · rw [if_pos (by omega), if_pos h2, h.base]
  · have hlt : i - A.prev.index - 1 < k - A.prev.index := by omega
    have hget := congrArg (·[i - A.prev.index - 1]?) h.ents
    simp only [getElem?_take_of_lt hlt] at hget
    have hin : i - A.prev.index - 1 < A.entries.length := by
      simp only [LogSlice.lastIndex] at hup; omega
    rw [if_neg (by omega), if_neg h2, hb, hget, getD_eq_getElem?_getD, getElem?_eq_getElem hin]
    rfl

theorem entries_eq [Codec] (hlo : A.prev.index < lo)
    (hlt : lo < hi) (hhi : hi ≤ k + 1) :
    ms.entries lo hi maxSize = .ok (.ok (limitSize maxSize (A.readEntries lo hi))) := by
  have hb := congrArg index h.base
  have hlast := h.lastIndex_le
  have hread : (ms.ents.drop (lo - ms.base.index - 1)).take (hi - lo) = A.readEntries lo hi := by
    have hsub : hi - lo ≤ k - A.prev.index - (lo - A.prev.index - 1) := by omega
    have := congrArg (fun l => (l.drop (lo - A.prev.index - 1)).take (hi - lo)) h.ents
    simp only [drop_take, take_take, Nat.min_eq_left hsub] at this
    rw [hb, this]
    rfl
  have hne : ms.ents ≠ [] := by
    intro h0
    simp only [lastIndex, h0, length_nil] at hlast
    omega
  have h1 : ¬ lo ≤ ms.base.index := by omega
  have h2 : hi ≤ ms.lastIndex + 1 := by omega
  simp only [entries, assertTrue, h1, h2, hne, hlt.le, if_true, if_false, hread]
  rfl

end MemoryStorage.HoldsTo

namespace LogInv

variable {A : LogSlice} {l : RaftLog} {queue done : List LogWrite} (h : LogInv A l queue done)

include h

/-! ## Reads -/

theorem lastIndex_eq : l.lastIndex = A.lastIndex := by
  have : l.lastIndex = l.unstable.toLogSlice.lastIndex := rfl
  rw [this, h.unstable, lastIndex_forward h.prev_ge h.prev_le]

theorem accTerm_eq : l.accTerm = A.term := by
  have : l.accTerm = l.unstable.toLogSlice.term := rfl
  rw [this, h.unstable, forward_term]

theorem chained : LogSlice.Chained A.prev A.entries :=
  (valid_iff.mp h.valid).1

theorem firstIndex_eq : l.firstIndex = A.prev.index + 1 := by
  unfold RaftLog.firstIndex maybeFirstIndex
  cases hs : l.unstable.snapshot with
  | none =>
    have := congrArg index (h.stable hs).head.base
    simp [firstIndex, this]
  | some s =>
    have := congrArg index (h.snapshot s hs).2.1
    simpa [Snapshot.id] using this

/-- Where entries of the slice are not in memory, no snapshot is pending. -/
theorem snapshot_eq_none (hlt : A.prev.index < l.unstable.prev.index) :
    l.unstable.snapshot = none := by
  cases hs : l.unstable.snapshot with
  | none => rfl
  | some s =>
    have := (h.snapshot s hs).2.2
    omega

/-- The log reads the terms of the slice. -/
theorem term_eq (i : Nat) : l.term i = A.readTerm i := by
  have hge := h.prev_ge
  have hlast : l.unstable.lastIndex = A.lastIndex := h.lastIndex_eq
  unfold RaftLog.term maybeTerm
  by_cases hin : i < l.unstable.prev.index ∨ i > l.unstable.lastIndex
  · rw [if_pos hin, h.firstIndex_eq, h.lastIndex_eq]
    unfold LogSlice.readTerm
    by_cases hc : i < A.prev.index
    · simp [hc]
    · by_cases hu : i > A.lastIndex
      · simp [hc, hu]
      · -- Below `prev` and not compacted: no snapshot is pending, storage has it.
        have hnone := h.snapshot_eq_none (by omega)
        have := (h.stable hnone).head.term_eq (i := i) (by omega) (by omega)
        simp [hc, hu, this]
  · have hterm : l.unstable.termAt i = A.termAt i := by
      have : l.unstable.termAt i = l.unstable.toLogSlice.termAt i := rfl
      rw [this, h.unstable, termAt_forward hge (by omega)]
    have h1 : ¬ i < A.prev.index := by omega
    have h2 : ¬ i > A.lastIndex := by omega
    simp [hin, hterm, LogSlice.readTerm, h1, h2]

/-- The log is read as the slice. -/
theorem presents [Codec] : l.storage.reader.Presents l.unstable A where
  first := h.firstIndex_eq
  prev_ge := h.prev_ge
  prev_le := h.prev_le
  unstable := congrArg LogSlice.entries h.unstable
  entries := by
    intro lo hi maxSize hlo hlt hhi
    -- The start is in storage, so no snapshot is pending.
    exact (h.stable (h.snapshot_eq_none (by omega))).head.entries_eq hlo hlt hhi

/-- Below the slice a read reports the compaction. -/
theorem slice_compacted [Codec] (hle : lo ≤ hi) (hlo : lo ≤ A.prev.index) :
    l.slice lo hi maxSize = .ok (.error .compacted) := by
  have h1 : lo < A.prev.index + 1 := by omega
  simp only [RaftLog.slice, RaftLog.mustCheckOutOfBounds, assertTrue, hle, h.firstIndex_eq, h1,
    if_true]
  rfl

/-- A read returns a prefix of the entries asked for: at least one if there is
any, and all of them when they are below the limit. -/
theorem slice_eq [Codec] (hlo : A.prev.index < lo) (hle : lo ≤ hi) (hhi : hi ≤ A.lastIndex + 1) :
    ∃ n, l.slice lo hi maxSize = .ok (.ok ((A.readEntries lo hi).take n)) ∧
      (lo < hi → 0 < n) ∧ (entsSize (A.readEntries lo hi) < maxSize → hi - lo ≤ n) := by
  have hlen := length_readEntries hlo hhi
  rcases h.presents.slice_cases maxSize hlo hle hhi with
    hslice | ⟨xs, ys, hsplit, hne, hsize, -, hslice⟩
  · obtain ⟨n, hn, hpos, hfull⟩ := limitSize_eq_take maxSize (A.readEntries lo hi)
    refine ⟨n, ?_, fun hlt => hpos ?_, fun hsz => hlen ▸ hfull hsz.le⟩
    · rw [l.slice_eq_reader, hslice, hn]
    · intro hnil
      rw [hnil, length_nil] at hlen
      omega
  · refine ⟨xs.length, ?_, fun _ => length_pos_iff.mpr hne, fun hsz => ?_⟩
    · rw [l.slice_eq_reader, hslice, hsplit, take_left]
    · rw [hsplit, entsSize_append] at hsz
      omega

/-! ## Appends -/

variable {b : LogSlice}

/-- The new slice of a log that replaces everything after `b.prev` by `b`. -/
theorem unstable_splice (hb : b.Attaches A) (hle : l.unstable.prev.index ≤ b.prev.index) :
    (A.splice b).forward l.unstable.prev.index = l.unstable.toLogSlice.splice b := by
  rw [forward_splice_of_le hb h.prev_ge hle, ← h.unstable]

/-- The unstable log once `b` has replaced everything after `b.prev`. -/
def spliced (A : LogSlice) (u : Unstable) (b : LogSlice) : Unstable :=
  { u with
    toLogSlice := (A.splice b).forward (min u.prev.index b.prev.index)
    entryInProgress := min u.entryInProgress b.prev.index }

theorem lastEntryID_unstable :
    l.unstable.toLogSlice.lastEntryID = ⟨A.termAt A.lastIndex, A.lastIndex⟩ := by
  rw [h.unstable, lastEntryID_forward h.chained h.prev_ge h.prev_le,
    lastEntryID_of_chained h.chained]

/-- A slice that attaches at the end of the log is appended to the unstable log. -/
theorem spliced_end (hb : b.Attaches A) (hend : b.prev.index = A.lastIndex) :
    spliced A l.unstable b =
      { l.unstable with term := b.term, entries := l.unstable.entries ++ b.entries } := by
  have hle : l.unstable.prev.index ≤ b.prev.index := hend ▸ h.prev_le
  have hip : l.unstable.entryInProgress ≤ b.prev.index := hend ▸ h.inProgress_le
  have hlast : l.unstable.lastIndex = A.lastIndex := h.lastIndex_eq
  have hlen : l.unstable.entries.length ≤ b.prev.index - l.unstable.prev.index := by
    simp only [LogSlice.lastIndex] at hlast
    simp only [LogSlice.lastIndex] at hend
    omega
  rw [spliced, Nat.min_eq_left hle, Nat.min_eq_left hip, h.unstable_splice hb hle,
    LogSlice.splice, take_of_length_le hlen]

theorem truncateAndAppend_eq (hb : b.Attaches A) : l.unstable.truncateAndAppend b = .ok
      (if b.term < A.term ∨ b.term = A.term ∧ b.prev.index < A.lastIndex then none
       else some (spliced A l.unstable b)) := by
  have hterm : l.unstable.term = A.term := h.accTerm_eq
  have hup := hb.upper
  unfold truncateAndAppend
  rw [h.lastEntryID_unstable, hterm]
  by_cases hold : b.term < A.term
  · simp only [hold, if_true, true_or]
    rfl
  by_cases hend : b.prev.index = A.lastIndex
  · have hprev : b.prev = ⟨A.termAt A.lastIndex, A.lastIndex⟩ := by
      rw [← hend, hb.term]
    have hno : ¬ (b.term < A.term ∨ b.term = A.term ∧ b.prev.index < A.lastIndex) := by omega
    rw [if_neg hold, if_neg hno, h.spliced_end hb hend]
    simp only [hprev, if_true]
    rfl
  have hprev : b.prev ≠ ⟨A.termAt A.lastIndex, A.lastIndex⟩ := by
    intro he
    exact hend (congrArg index he)
  have hlt : b.prev.index < A.lastIndex := by omega
  have hge : ¬ b.prev.index ≥ A.lastIndex := by omega
  rw [if_neg hold]
  simp only [hprev, hge, if_false]
  by_cases hsame : b.term = A.term
  · simp only [hsame, hlt, and_self, or_true, if_true]
    rfl
  -- A newer leader overwrites the end of the log; no snapshot lies beyond `b.prev`.
  have hsnap : ∀ s ∈ l.unstable.snapshot, s.metadata.index ≤ b.prev.index := by
    intro s hs
    have hid := congrArg index (h.snapshot s hs).2.1
    have := hb.lower
    simp only [Snapshot.id] at hid
    omega
  have hno : ¬ (b.term < A.term ∨ b.term = A.term ∧ b.prev.index < A.lastIndex) := by omega
  rw [if_neg hsame, assertTrue_of hsnap, if_neg hno, spliced]
  by_cases hle : b.prev.index ≤ l.unstable.prev.index
  · rw [if_pos hle, Nat.min_eq_right hle, forward_splice hb]
    rfl
  · have hle' : l.unstable.prev.index ≤ b.prev.index := by omega
    rw [if_neg hle, Nat.min_eq_left hle', h.unstable_splice hb hle']
    rfl

/-- Replacing the end of the log by a newer slice, or extending it within one
term, keeps the relation. -/
theorem splice (hv : b.valid = true) (hb : b.Attaches A)
    (hterm : ¬ (b.term < A.term ∨ b.term = A.term ∧ b.prev.index < A.lastIndex))
    (hc : l.committed ≤ b.prev.index) :
    LogInv (A.splice b) { l with unstable := spliced A l.unstable b } queue done := by
  have hlast : b.prev.index ≤ b.lastIndex := by simp [LogSlice.lastIndex]
  have hlo := hb.lower
  have hge := h.prev_ge
  have hip := h.inProgress_ge
  have hcge := h.committed_ge
  have hreach : ∀ w : LogWrite, w.Bounded A → ∀ ms, w.Reached A ms →
      w.Reached (A.splice b) ms := by
    intro w hwb ms hw
    refine ⟨fun ht hlt => ?_, hw.snapshot⟩
    have hle := hwb.term
    rw [splice_term] at ht
    have hmem := hw.entries (by omega) hlt
    have := hmem.upper
    exact hmem.splice hb (by omega) hlast
  constructor
  case valid => exact valid_splice h.valid hv hb
  case prev_ge => exact le_min hge hlo
  case prev_le =>
    rw [lastIndex_splice hb]
    exact (min_le_right _ _).trans hlast
  case unstable => rfl
  case snapshot =>
    intro s hs
    obtain ⟨hne, hid, hprev⟩ := h.snapshot s hs
    refine ⟨hne, hid, ?_⟩
    change min _ _ = A.prev.index
    rw [hprev]
    exact Nat.min_eq_left hlo
  case snapshotInProgress => exact h.snapshotInProgress
  case inProgress_ge => exact min_le_min_right _ hip
  case inProgress_le =>
    rw [lastIndex_splice hb]
    exact (min_le_right _ _).trans hlast
  case inProgress_snap =>
    intro hs hp
    change min _ _ = min _ _
    rw [h.inProgress_snap hs hp]
  case committed_ge => exact hcge
  case committed_le =>
    rw [lastIndex_splice hb]
    exact hc.trans hlast
  case applied_le => exact h.applied_le
  case stable =>
    intro hs
    refine (h.stable hs).mono fun ms hms => ?_
    exact (hms.mono (le_min hge hlo) (min_le_left _ _)).splice hb (min_le_right _ _) hlast
  case tail =>
    intro hs
    refine (h.tail hs).mono fun ms hms => ?_
    exact (hms.mono (le_min (hge.trans hip) hlo) (min_le_left _ _)).splice hb (min_le_right _ _)
      hlast
  case bounded =>
    intro w hw
    have hwb := h.bounded w hw
    have h1 := hwb.term
    refine ⟨?_, fun ht => ?_, hwb.snapshot⟩
    · rw [splice_term]; omega
    · rw [splice_term] at ht
      rw [lastIndex_splice hb]
      have := hwb.index (by omega)
      omega
  case done =>
    intro w hw
    exact (h.done w hw).mono (hreach w (h.bounded w (mem_append_left _ hw)))
  case queued =>
    exact h.queued.mono fun w hw => hreach w (h.bounded w (mem_append_right _ hw))

/-- The leader's own append: at the end of the log, under its own term. -/
theorem append {a : LogSlice} (hv : a.valid = true) :
    (a.term < A.term ∨ a.prev ≠ A.lastEntryID) ∧ l.append a = none ∨
    ∃ u, l.append a = some { l with unstable := u } ∧ A.term ≤ a.term ∧ a.prev = A.lastEntryID ∧
      LogInv (A.splice a) { l with unstable := u } queue done := by
  have hterm : l.unstable.term = A.term := h.accTerm_eq
  have hid := lastEntryID_of_chained h.chained
  unfold RaftLog.append Unstable.append
  rw [h.lastEntryID_unstable, hterm, ← hid]
  by_cases hold : a.term < A.term
  · exact .inl ⟨.inl hold, by simp [hold]⟩
  by_cases hprev : a.prev = A.lastEntryID
  · right
    have hend : a.prev.index = A.lastIndex := by rw [hprev, hid]
    have hb : a.Attaches A := {
      lower := by rw [hend]; simp [LogSlice.lastIndex]
      upper := hend.le
      term := by rw [hprev, hid] }
    refine ⟨spliced A l.unstable a, ?_, by omega, hprev, h.splice hv hb (by omega) ?_⟩
    · rw [h.spliced_end hb hend]
      simp [hold, hprev]
    · rw [hend]; exact h.committed_le
  · exact .inl ⟨.inr hprev, by simp [hold, hprev]⟩

theorem matchTerm_eq (id : EntryID) : l.matchTerm id = A.holds id := by
  have hterm := h.term_eq id.index
  cases hr : A.readTerm id.index with
  | error | ok =>
    rw [hr] at hterm
    simp [RaftLog.matchTerm, LogSlice.holds, hterm, hr]

theorem matchLoop_eq : ∀ (m : Nat) (es : List Entry), l.matchLoop m es = A.overlap m es
  | _, [] => rfl
  | m, e :: es => by
    rw [RaftLog.matchLoop, LogSlice.overlap, h.matchTerm_eq, matchLoop_eq e.index es]

/-- A follower's append. It only panics when the slice contradicts a committed
entry. -/
theorem maybeAppend {a : LogSlice} (hv : a.valid = true) : Sat (l.maybeAppend a)
      (fun p => p = .appendBelowCommit ∧
        ∃ e ∈ a.entries, A.prev.index < e.index ∧ e.index ≤ l.committed ∧
          A.holds (pbEntryID e) = false)
      (fun r => r = none ∧ A.merge a = none ∨
        ∃ u A', r = some { l with unstable := u } ∧ A.merge a = some A' ∧
          LogInv A' { l with unstable := u } queue done) := by
  have hc := (valid_iff.mp hv).1
  unfold RaftLog.maybeAppend RaftLog.matchSlice LogSlice.merge
  rw [h.matchTerm_eq, h.matchLoop_eq]
  by_cases hp : A.holds a.prev = true
  · obtain ⟨hatt, hlo, hup⟩ := attaches_overlap hc hp
    simp only [hp, if_true]
    set b := a.forward (A.overlap a.prev.index a.entries) with hbdef
    have hbv : b.valid = true := valid_forward hv hlo hup
    cases hes : b.entries with
    | nil => exact .inr ⟨l.unstable, A, rfl, rfl, h⟩
    | cons e es =>
      have hmem : e ∈ a.entries := by
        have : e ∈ b.entries := by rw [hes]; exact mem_cons_self
        exact mem_of_mem_drop this
      have hidx : e.index = b.prev.index + 1 := by
        have := (valid_iff.mp hbv).1
        rw [hes] at this
        exact this.2.1
      have hhead : b.entries.head? = some e := by rw [hes]; rfl
      have hfresh : A.holds (pbEntryID e) = false := overlap_next hc hhead
      have hbase : A.prev.index ≤ b.prev.index := hatt.lower
      refine sat_assert_bind (fun hle => ⟨rfl, e, hmem, by omega, by omega, hfresh⟩)
        fun hlt => ?_
      rw [h.truncateAndAppend_eq hatt]
      by_cases hold : b.term < A.term ∨ b.term = A.term ∧ b.prev.index < A.lastIndex
      · exact .inl ⟨by simp [hold], by simp [hold]⟩
      · refine .inr ⟨spliced A l.unstable b, A.splice b, by simp [hold], by simp [hold], ?_⟩
        exact h.splice hbv hatt hold (by omega)
  · rw [if_neg hp, if_neg hp]
    exact .inl ⟨rfl, rfl⟩

/-! ## Snapshots -/

/-- The log after a snapshot has replaced it. -/
def restored (A : LogSlice) (s : TermSnapshot) : LogSlice where
  term := max A.term s.term
  prev := s.lastEntryID
  entries := []

theorem restore {s : TermSnapshot} {l' : RaftLog}
    (hne : isEmptySnap s.snap = false) (hv : s.valid = true) (hc : l.committed ≤ s.lastIndex)
    (heq : l.committed = s.lastIndex → A.holds s.lastEntryID = true)
    (hr : l.restore s = some l') : LogInv (restored A s) l' queue done := by
  have hterm : l.unstable.term = A.term := h.accTerm_eq
  have hlast : l.unstable.lastIndex = A.lastIndex := h.lastIndex_eq
  have hcge := h.committed_ge
  have hsidx : s.lastEntryID.index = s.lastIndex := rfl
  unfold RaftLog.restore Unstable.restore at hr
  rw [hterm, hlast] at hr
  by_cases hold : s.term ≤ A.term ∧ s.lastIndex < A.lastIndex
  · simp [hold] at hr
  rw [if_neg hold] at hr
  obtain rfl : _ = l' := by simpa using hr
  have hlastr : (restored A s).lastIndex = s.lastIndex := by
    simp [restored, LogSlice.lastIndex, hsidx]
  -- Nothing written before reaches beyond the snapshot under the new term.
  have hbound : ∀ w : LogWrite, w.Bounded A → w.term = (restored A s).term →
      w.index ≤ s.lastIndex := by
    intro w hw ht
    have h1 := hw.term
    simp only [restored] at ht
    have := hw.index (by omega)
    omega
  -- A snapshot at the same index is the same one: it was the base of the log already.
  have hreach : ∀ w : LogWrite, w.Bounded A → ∀ ms, w.Reached A ms →
      w.Reached (restored A s) ms := by
    intro w hwb ms hw
    refine ⟨fun ht hlt => ?_, fun s' hs' he => ?_⟩
    · have := hbound w hwb ht
      simp only [restored, hsidx] at hlt
      omega
    · have hle := hwb.snapshot s' hs'
      simp only [restored, hsidx] at he
      have hbase := hw.snapshot s' hs' (by omega)
      have hh := (holds_iff.mp (heq (by omega))).2.2
      have hidx : A.prev.index = s.lastIndex := by omega
      have hterm0 : A.prev.term = s.lastEntryID.term := by
        rw [← hh, hsidx, ← hidx]
        simp [LogSlice.termAt]
      rw [hbase]
      exact (EntryID.mk.injEq _ _ _ _).mpr ⟨hterm0, hidx⟩
  constructor
  case valid =>
    have : s.lastEntryID.term ≤ s.term := of_decide_eq_true hv
    simp only [restored, LogSlice.valid, LogSlice.validFrom, decide_eq_true_eq]
    exact this.trans (le_max_right _ _)
  case prev_ge => exact le_rfl
  case prev_le => exact hlastr.ge
  case unstable => exact (forward_self (restored A s)).symm
  case snapshot =>
    intro s' hs'
    obtain rfl : s.snap = s' := by simpa using hs'
    exact ⟨hne, rfl, rfl⟩
  case snapshotInProgress => intro hp; cases hp
  case inProgress_ge => exact le_rfl
  case inProgress_le => exact hlastr.ge
  case inProgress_snap => intro _ _; rfl
  case committed_ge => exact le_rfl
  case committed_le => exact hlastr.ge
  case applied_le => exact h.applied_le.trans hc
  case stable => intro hs; cases hs
  case tail => rintro (hs | hs) <;> cases hs
  case bounded =>
    intro w hw
    have hwb := h.bounded w hw
    refine ⟨hwb.term.trans (le_max_left _ _), fun ht => hlastr ▸ hbound w hwb ht, ?_⟩
    intro s' hs'
    exact ((hwb.snapshot s' hs').trans hcge).trans hc
  case done =>
    intro w hw
    exact (h.done w hw).mono (hreach w (h.bounded w (mem_append_left _ hw)))
  case queued =>
    exact h.queued.mono fun w hw => hreach w (h.bounded w (mem_append_right _ hw))

/-! ## Readies, writes and acknowledgements -/

theorem nextEntries_eq :
    l.nextUnstableEnts = A.entries.drop (l.unstable.entryInProgress - A.prev.index) := by
  have hge := h.prev_ge
  have hip := h.inProgress_ge
  have hlast : l.unstable.lastIndex = A.lastIndex := h.lastIndex_eq
  have hents : l.unstable.entries = A.entries.drop (l.unstable.prev.index - A.prev.index) :=
    congrArg LogSlice.entries h.unstable
  unfold RaftLog.nextUnstableEnts nextEntries
  rw [hlast]
  by_cases heq : l.unstable.entryInProgress = A.lastIndex
  · rw [if_pos heq, heq, drop_of_length_le]
    simp [LogSlice.lastIndex]
  · have hsum : l.unstable.prev.index - A.prev.index +
        (l.unstable.entryInProgress - l.unstable.prev.index) =
          l.unstable.entryInProgress - A.prev.index := by omega
    rw [if_neg heq, hents, drop_drop, hsum]

theorem nextWrite_eq : l.nextWrite =
    { snapshot := l.unstable.nextSnapshot
      entries := A.entries.drop (l.unstable.entryInProgress - A.prev.index)
      term := A.term } := by
  have hsnap : l.nextUnstableSnapshot.filter (!isEmptySnap ·) = l.unstable.nextSnapshot := by
    unfold RaftLog.nextUnstableSnapshot nextSnapshot
    split
    · rfl
    · cases hs : l.unstable.snapshot with
      | none => rfl
      | some s => simp [Option.filter, (h.snapshot s hs).1]
  rw [RaftLog.nextWrite, hsnap, h.nextEntries_eq, h.accTerm_eq]

/-- With nothing to write, a Ready leaves the log as it is. -/
theorem idle (he : l.nextWrite.entries = [])
    (hs : l.nextWrite.snapshot = none) : l.acceptUnstable = l := by
  rw [h.nextWrite_eq] at he hs
  have hlast : l.unstable.lastIndex = A.lastIndex := h.lastIndex_eq
  have hentry : l.unstable.lastIndex = l.unstable.entryInProgress := by
    have hlen := drop_eq_nil_iff.mp he
    have hle := h.inProgress_le
    have hge := h.prev_ge.trans h.inProgress_ge
    simp only [LogSlice.lastIndex] at hlast hle ⊢
    omega
  have hsnap : l.unstable.snapshot.isSome = l.unstable.snapshotInProgress := by
    dsimp only [nextSnapshot] at hs
    cases hp : l.unstable.snapshotInProgress with
    | true => exact isSome_iff_ne_none.mpr (h.snapshotInProgress hp)
    | false =>
      rw [hp, if_neg Bool.false_ne_true] at hs
      rw [hs]
      rfl
  unfold RaftLog.acceptUnstable acceptInProgress
  rw [hentry, hsnap]

/-- Once all writes up to a Ready are done, storage holds the whole log. -/
theorem write_next : Ends write refused
      (fun ms => Sat (ms.write l.nextWrite) refused (·.HoldsTo A A.lastIndex)) l.storage queue := by
  cases hs : l.unstable.nextSnapshot with
  | none =>
    have hpend : l.unstable.snapshot = none ∨ l.unstable.snapshotInProgress = true := by
      unfold nextSnapshot at hs
      by_cases hp : l.unstable.snapshotInProgress = true
      · exact .inr hp
      · exact .inl (by simpa [hp] using hs)
    refine (h.tail hpend).mono fun ms hms => ?_
    simp only [write, h.nextWrite_eq, hs]
    exact hms.append_rest h.valid
  | some s =>
    have hnp : l.unstable.snapshotInProgress = false := by
      by_contra hp
      simp [nextSnapshot, hp] at hs
    have hsome : l.unstable.snapshot = some s := by
      simpa [nextSnapshot, hnp] using hs
    obtain ⟨_, hid, hprev⟩ := h.snapshot s hsome
    have hip := h.inProgress_snap (by simp [hsome]) hnp
    refine h.queued.ends fun ms => ?_
    simp only [write, h.nextWrite_eq, hs, hip, hprev, applySnapshot]
    split
    · rename_i hx
      split at hx
      · simp
      · cases hx
    · rename_i ms' hx
      split at hx
      · cases hx
      · cases hx
        exact (HoldsTo.of_base hid).append_rest h.valid

theorem nextWrite_bounded : l.nextWrite.Bounded A where
  term := h.accTerm_eq.le
  index := by
    intro _
    simp only [LogWrite.index, h.nextWrite_eq]
    cases hl : (A.entries.drop (l.unstable.entryInProgress - A.prev.index)).getLast? with
    | none => simp
    | some e =>
      rw [getLast?_eq_getElem?, getElem?_drop] at hl
      have hidx := h.chained.index hl
      have hlt := (List.getElem?_eq_some_iff.mp hl).1
      simp only [map_some, getD_some, hidx, LogSlice.lastIndex]
      omega
  snapshot := by
    intro s hs
    have hid := (h.snapshot s (RaftLog.mem_nextWrite_snapshot hs)).2.1
    exact (congrArg index hid).le

variable {w : LogWrite}

omit h in
/-- Storage that holds the whole log holds what any write left there. -/
theorem reached_of_holds {ms : MemoryStorage} (hw : w.Bounded A)
    (hms : ms.HoldsTo A A.lastIndex) : w.Reached A ms where
  entries := fun ht hlt => hms.mono hlt.le (hw.index ht)
  snapshot := fun _ _ _ => hms.base

/-- A Ready queues the next write and marks everything as in progress. -/
theorem ready : LogInv A l.acceptUnstable (queue ++ [l.nextWrite]) done := by
  have hlast : l.unstable.lastIndex = A.lastIndex := h.lastIndex_eq
  have hnext := h.write_next
  have hprevle := h.prev_le
  have hge := h.prev_ge
  have hple : l.unstable.prev.index ≤ l.unstable.lastIndex := hlast ▸ hprevle
  have hreach : ∀ w : LogWrite, w.Bounded A → Ends write refused
      (fun ms => Sat (ms.write l.nextWrite) refused (w.Reached A)) l.storage queue := fun w hw =>
    hnext.mono fun _ hms => hms.imp fun _ hms' => reached_of_holds hw hms'
  exact { h with
    snapshotInProgress := fun hp => isSome_iff_ne_none.mp hp
    inProgress_ge := hple
    inProgress_le := hlast.le
    inProgress_snap := by
      intro hs hp
      exact absurd (hp.symm.trans (isSome_iff_ne_none.mpr hs)) Bool.false_ne_true
    stable := by
      intro hs
      exact (h.stable hs).snoc (hnext.mono fun _ hms => hms.imp fun _ hms' =>
        hms'.mono hge hprevle)
    tail := by
      intro _
      refine Ends.snoc (hnext.mono fun _ hms => hms.imp fun _ hms' => ?_)
      exact hms'.mono (hge.trans hple) hlast.le
    bounded := by
      intro w hw
      rw [← append_assoc, mem_append, mem_singleton] at hw
      rcases hw with hw | rfl
      · exact h.bounded w hw
      · exact h.nextWrite_bounded
    done := by
      intro w hw
      exact (h.done w hw).snoc (hreach w (h.bounded w (mem_append_left _ hw)))
    queued := h.queued.snoc (fun w hw => hreach w (h.bounded w (mem_append_right _ hw)))
      (hreach _ h.nextWrite_bounded) }

omit h in
/-- The append thread performs the next write. -/
theorem execute (h : LogInv A l (w :: queue) done) : Sat (l.storage.write w) refused
      (fun ms => LogInv A { l with storage := ms } queue (w :: done)) := by
  have hq : Sat (l.storage.write w) refused _ := h.queued
  cases hx : l.storage.write w with
  | error p => rw [hx] at hq; exact hq
  | ok ms =>
    rw [hx] at hq
    have hstep : ∀ {P : MemoryStorage → Prop},
        Settles write refused P l.storage (w :: queue) →
        Settles write refused P ms queue := by
      intro P hP
      have := hP.2
      rwa [hx] at this
    rw [sat_ok]
    exact { h with
      stable := fun hs => hstep (h.stable hs)
      tail := by
        intro hs
        have : Sat (l.storage.write w) refused _ := h.tail hs
        rwa [hx] at this
      bounded := by
        intro v hv
        refine h.bounded v ?_
        simp only [cons_append, mem_cons, mem_append] at hv ⊢
        tauto
      done := by
        intro v hv
        rcases mem_cons.mp hv with rfl | hv
        · exact hq.1
        · exact hstep (h.done v hv)
      queued := hq.2 }

/-- Only the storage, the unstable log and the cursors matter. -/
theorem congr {l' : RaftLog} (hs : l'.storage = l.storage)
    (hu : l'.unstable = l.unstable) (hc : l'.committed = l.committed)
    (ha : l'.applied ≤ l.committed) : LogInv A l' queue done := by
  obtain ⟨st, u, c, i, a, m, sz, p⟩ := l'
  cases hs
  cases hu
  cases hc
  exact { h with applied_le := ha }

/-- The acknowledgement of a snapshot write releases the pending snapshot. -/
theorem stableSnapTo (hw : w ∈ done) {s : Snapshot}
    (hs : s ∈ w.snapshot) : LogInv A (l.stableSnapTo s.metadata.index) queue done := by
  unfold RaftLog.stableSnapTo Unstable.stableSnapTo
  split
  · rename_i hidx
    obtain ⟨s', hs', he⟩ := map_eq_some_iff.mp hidx
    obtain ⟨_, hid, hprev⟩ := h.snapshot s' hs'
    have hA : s.metadata.index = A.prev.index := he ▸ congrArg index hid
    have hset : Settles write refused (·.HoldsTo A A.prev.index) l.storage queue :=
      (h.done w hw).mono fun ms hms => .of_base (hms.snapshot s hs hA)
    exact {
      h with
      snapshot := fun _ hn => by cases hn
      snapshotInProgress := fun hn => by cases hn
      inProgress_snap := fun hn => absurd rfl hn
      stable := fun _ => by
        change Settles _ _ (fun ms : MemoryStorage => ms.HoldsTo A l.unstable.prev.index) _ _
        rw [hprev]
        exact hset
      tail := fun _ => by
        by_cases hp : l.unstable.snapshotInProgress = true
        · exact h.tail (.inr hp)
        · have hip := h.inProgress_snap (by simp [hs']) (by simpa using hp)
          change Ends _ _ (fun ms : MemoryStorage => ms.HoldsTo A l.unstable.entryInProgress) _ _
          rw [hip, hprev]
          exact hset.ends }
  · exact h

/-- The acknowledgement of entries moves `prev` forward, never past what every
queued write leaves in storage. -/
theorem stableTo (hw : w ∈ done) : Sat (l.stableTo ⟨w.term, w.index⟩)
      (fun _ => w.term = l.unstable.term ∧ ∃ s ∈ l.unstable.snapshot, s.metadata.index < w.index)
      (fun l' => LogInv A l' queue done ∧ ∃ u, l' = { l with unstable := u }) := by
  have hterm : l.unstable.term = A.term := h.accTerm_eq
  have hlast : l.unstable.lastIndex = A.lastIndex := h.lastIndex_eq
  have hge := h.prev_ge
  unfold RaftLog.stableTo
  refine Sat.bind (P := fun u => LogInv A { l with unstable := u } queue done) ?_
    fun u hu => ⟨hu, u, rfl⟩
  unfold Unstable.stableTo
  rw [hterm, hlast]
  refine Sat.ite (fun _ => h) fun hsame => ?_
  refine Sat.ite (fun _ => h) fun _ => ?_
  refine Sat.ite (fun _ => h) fun hin => ?_
  simp only [not_not] at hsame
  simp only [not_or, not_le, not_lt] at hin
  obtain ⟨hgt, hle⟩ := hin
  refine sat_assert_bind (fun hs => ⟨hsame, ?_⟩) fun hs => ?_
  · obtain ⟨s, hsnap⟩ := ne_none_iff_exists'.mp hs
    obtain ⟨-, hid, hprev⟩ := h.snapshot s hsnap
    refine ⟨s, hsnap, ?_⟩
    have hidx : s.metadata.index = A.prev.index := congrArg index hid
    omega
  have hlt : A.prev.index < w.index := by omega
  have hfwd : l.unstable.toLogSlice.forward w.index = A.forward w.index := by
    rw [h.unstable, forward_forward hge hgt.le]
  rw [sat_pure]
  exact {
    h with
    prev_ge := hlt.le
    prev_le := hle
    unstable := hfwd
    snapshot := fun s hs' => by
      rw [hs] at hs'
      cases hs'
    inProgress_ge := le_max_right _ _
    inProgress_le := max_le h.inProgress_le hle
    inProgress_snap := fun hn => absurd hs hn
    stable := fun _ => (h.done w hw).mono fun ms hms => hms.entries hsame hlt
    tail := fun _ => by
      change Ends _ _
        (fun ms : MemoryStorage => ms.HoldsTo A (max l.unstable.entryInProgress w.index)) _ _
      rcases le_total l.unstable.entryInProgress w.index with hcase | hcase
      · rw [Nat.max_eq_right hcase]
        exact (h.done w hw).ends.mono fun ms hms => hms.entries hsame hlt
      · rw [Nat.max_eq_left hcase]
        exact h.tail (.inl hs) }

theorem appliedSnap (hw : w ∈ done) :
    Sat (l.appliedSnap w.snapshot) (fun _ => False) (fun l' => LogInv A l' queue done ∧
      l'.storage = l.storage ∧ l'.committed = l.committed ∧
      ∀ s ∈ l'.unstable.snapshot, s ∈ l.unstable.snapshot ∧
        ∀ s' ∈ w.snapshot, s'.metadata.index ≠ s.metadata.index) := by
  unfold RaftLog.appliedSnap
  cases hs : w.snapshot with
  | none => exact ⟨h, rfl, rfl, fun s hin => ⟨hin, nofun⟩⟩
  | some s =>
    have hsnap := h.stableSnapTo hw hs
    have hle : s.metadata.index ≤ l.committed :=
      ((h.bounded w (mem_append_left _ hw)).snapshot s hs).trans h.committed_ge
    have happ := h.applied_le
    refine sat_assert_bind (fun hn => hn ⟨max_le hle happ, le_max_right _ _⟩) fun _ =>
      ⟨hsnap.congr rfl rfl rfl (max_le hle happ), rfl, rfl, ?_⟩
    · change ∀ s' ∈ (l.unstable.stableSnapTo s.metadata.index).snapshot, _
      unfold Unstable.stableSnapTo
      split
      · exact nofun
      · rename_i hidx
        refine fun s' hin => ⟨hin, ?_⟩
        rintro _ ⟨⟩ heq
        exact hidx (map_eq_some_iff.mpr ⟨s', hin, heq.symm⟩)

/-- An acknowledgement, whenever it arrives. It panics only when it overtakes the
acknowledgement of a snapshot that its entries follow. -/
theorem ack (hw : w ∈ done) :
    Sat (l.ackWrite w) (fun _ => l.OvertakenBy w) (LogInv A · queue done) := by
  unfold RaftLog.ackWrite
  refine Sat.bind ((h.appliedSnap hw).mono (fun _ hf => hf.elim) fun _ h' => h')
    fun l' ⟨h', _, _, hsn⟩ => ?_
  refine Sat.ite (fun _ => ?_) fun _ => h'
  refine (h'.stableTo hw).mono (fun p ⟨hterm, s, hs, hlt⟩ => ?_) fun l'' hl'' => hl''.1
  have hacc : l'.unstable.term = l.unstable.term := h'.accTerm_eq.trans h.accTerm_eq.symm
  obtain ⟨hin, hother⟩ := hsn s hs
  exact ⟨hterm.trans hacc, s, hin, hlt, hother⟩

omit h in
/-- A log that has just been opened over well-formed storage. -/
theorem init {ms : MemoryStorage} {size : Nat} (hms : LogSlice.Chained ms.base ms.ents) :
    Returns (RaftLog.newLogWithSize ms size) fun l =>
      l.storage = ms ∧
      LogInv ⟨(LogSlice.lastID ms.base ms.ents).term, ms.base, ms.ents⟩ l [] [] := by
  set A : LogSlice := ⟨(LogSlice.lastID ms.base ms.ents).term, ms.base, ms.ents⟩ with hA
  have hbase : A.prev.index ≤ A.lastIndex := by simp [LogSlice.lastIndex]
  have hholds : ms.HoldsTo A A.lastIndex := ⟨rfl, hbase, le_rfl, rfl⟩
  have hid := lastEntryID_of_chained (s := A) hms
  have hlastidx : ms.lastIndex = A.lastIndex := rfl
  have hterm0 : ms.term ms.lastIndex = .ok (A.termAt A.lastIndex) :=
    hlastidx ▸ hholds.term_eq hbase le_rfl
  simp only [RaftLog.newLogWithSize, hterm0]
  refine ⟨rfl, ?_⟩
  have hterm : A.termAt A.lastIndex = A.term := (congrArg EntryID.term hid).symm
  constructor
  case valid => exact valid_iff.mpr ⟨hms, le_rfl⟩
  case prev_ge => exact hbase
  case prev_le => exact le_rfl
  case unstable =>
    have hnil : A.entries.drop (A.lastIndex - A.prev.index) = [] :=
      drop_of_length_le (by simp [LogSlice.lastIndex])
    change LogSlice.mk (A.termAt A.lastIndex) ⟨A.termAt A.lastIndex, ms.lastIndex⟩ [] =
      A.forward ms.lastIndex
    rw [hlastidx, LogSlice.forward, hnil, hterm]
  case snapshot => intro s hs; cases hs
  case snapshotInProgress => intro hp; cases hp
  case inProgress_ge => exact le_rfl
  case inProgress_le => exact le_rfl
  case inProgress_snap => intro hs; exact absurd rfl hs
  case committed_ge => simp [firstIndex, hA]
  case committed_le => simpa [firstIndex, hA] using hbase
  case applied_le => exact le_rfl
  case stable => exact fun _ => hholds
  case tail => exact fun _ => hholds
  case bounded => intro w hw; cases hw
  case done => intro w hw; cases hw
  case queued => trivial

theorem commitTo (mark : LogMark) :
    Sat (l.commitTo mark) (fun p => p = .commitOutOfRange ∧ A.lastIndex < mark.index)
      (fun l' => LogInv A l' queue done ∧ ∃ c, l.committed ≤ c ∧
        l' = { l with committed := c }) := by
  unfold RaftLog.commitTo
  refine Sat.ite (fun hlt => ?_) fun _ => ⟨h, l.committed, le_rfl, rfl⟩
  rw [h.lastIndex_eq]
  refine sat_assert_bind (fun hn => ⟨rfl, by omega⟩) fun hle => ⟨?_, mark.index, hlt.le, rfl⟩
  exact {
    h with
    committed_ge := h.committed_ge.trans hlt.le
    committed_le := hle
    applied_le := h.applied_le.trans hlt.le }

end LogInv

end Cockroach.Raft
