import Cockroach.Raft.LogWrites

/-!
# The raft log under asynchronous writes

A raft log, the queue of writes handed to the append thread and the writes that
thread has performed form a system whose steps are the operations of the log and
of the thread, in any order. Beside it runs the log as it would be without
storage: one slice, changed by appends and snapshots alone. `asyncLog_refines`
says that the two never differ: what the log reads, from storage or from memory,
is that slice.
-/

namespace Cockroach.Raft

open Lib Lib.WriteQueue

namespace LogSlice

/-- Appending at the end of a log, by the leader of a term not below its own. -/
def extend (A a : LogSlice) : Option LogSlice :=
  if a.term < A.term ∨ a.prev ≠ A.lastEntryID then none else some (A.splice a)

/-- Replacing a log by a snapshot, unless the log is newer and longer. -/
def replace (A : LogSlice) (s : TermSnapshot) : Option LogSlice :=
  if s.term ≤ A.term ∧ s.lastIndex < A.lastIndex then none else some (LogInv.restored A s)

end LogSlice

/-- A raft log with the writes under way, and the log it stands for. -/
structure AsyncLog where
  log : RaftLog
  queue : List LogWrite := []
  done : List LogWrite := []
  abs : LogSlice
  deriving DecidableEq

inductive LogOp
  | append (a : LogSlice)
  | maybeAppend (a : LogSlice)
  | restore (t : TermSnapshot)
  | commitTo (mark : LogMark)
  /-- `acceptUnstable`, with the entries and snapshot put on the queue. -/
  | ready
  /-- The append thread performs the next write. -/
  | execute
  /-- The `MsgStorageAppendResp` of `w` is delivered. -/
  | ack (w : LogWrite)

namespace AsyncLog

/-- One operation, on the raft log and on the log it stands for. -/
def step (s : AsyncLog) : LogOp → Except Panic AsyncLog
  | .append a => .ok { s with
      log := (s.log.append a).getD s.log
      abs := (s.abs.extend a).getD s.abs }
  | .maybeAppend a => do
      let r ← s.log.maybeAppend a
      return { s with log := r.getD s.log, abs := (s.abs.merge a).getD s.abs }
  | .restore t => .ok { s with
      log := (s.log.restore t).getD s.log
      abs := (s.abs.replace t).getD s.abs }
  | .commitTo mark => do return { s with log := ← s.log.commitTo mark }
  | .ready => .ok { s with
      log := s.log.acceptUnstable
      queue := s.queue ++ [s.log.nextWrite] }
  | .execute =>
    match s.queue with
    | [] => .ok s
    | w :: queue => do
        let storage ← s.log.storage.write w
        return { s with log := { s.log with storage }, queue, done := w :: s.done }
  | .ack w => do return { s with log := ← s.log.ackWrite w }

/-- What the callers of the log ensure: slices and snapshots are valid and do not
contradict committed entries, commit marks are in the log, snapshots that are written go
beyond the one in storage, and only writes that have been performed are acknowledged,
entries after the pending snapshot not before the snapshot. -/
def Legal (s : AsyncLog) : LogOp → Prop
  | .append a => a.valid = true
  | .maybeAppend a => a.valid = true ∧ ∀ e ∈ a.entries, s.abs.prev.index < e.index →
      e.index ≤ s.log.committed → s.abs.holds (pbEntryID e) = true
  | .restore t => isEmptySnap t.snap = false ∧ t.valid = true ∧
      s.log.committed ≤ t.lastIndex ∧
      (s.log.committed = t.lastIndex → s.abs.holds t.lastEntryID = true)
  | .commitTo mark => mark.index ≤ s.abs.lastIndex
  | .ready => True
  | .execute => ∀ w ∈ s.queue.head?, ∀ t ∈ w.snapshot,
      s.log.storage.snapshot.metadata.index < t.metadata.index
  | .ack w => w ∈ s.done ∧ ¬ s.log.OvertakenBy w

/-- The states that legal operations reach from a log opened over `ms`. -/
inductive Reachable (ms : MemoryStorage) (size : Nat) : AsyncLog → Prop
  | init {l : RaftLog} (h : RaftLog.newLogWithSize ms size = .ok l) :
      Reachable ms size
        { log := l
          abs := ⟨(LogSlice.lastID ms.base ms.ents).term, ms.base, ms.ents⟩ }
  | step {s s' : AsyncLog} {op : LogOp} (h : Reachable ms size s) (hl : s.Legal op)
      (hs : s.step op = .ok s') : Reachable ms size s'

/-- The relation between the raft log and the log it stands for. -/
def Inv (s : AsyncLog) : Prop := LogInv s.abs s.log s.queue s.done

variable {s : AsyncLog}

theorem step_append (h : s.Inv) {a : LogSlice} (hv : a.valid = true) :
    (s.log.append a).isSome = (s.abs.extend a).isSome ∧
      LogInv ((s.abs.extend a).getD s.abs) ((s.log.append a).getD s.log) s.queue s.done := by
  unfold LogSlice.extend
  rcases LogInv.append h hv with ⟨hno, hr⟩ | ⟨u, hr, hterm, hprev, h'⟩
  · rw [if_pos hno, hr]
    exact ⟨rfl, h⟩
  · have hyes : ¬ (a.term < s.abs.term ∨ a.prev ≠ s.abs.lastEntryID) := by
      rintro (h1 | h1)
      · omega
      · exact h1 hprev
    rw [if_neg hyes, hr]
    exact ⟨rfl, h'⟩

theorem step_restore (h : s.Inv) {t : TermSnapshot} (hl : s.Legal (.restore t)) :
    (s.log.restore t).isSome = (s.abs.replace t).isSome ∧
      LogInv ((s.abs.replace t).getD s.abs) ((s.log.restore t).getD s.log) s.queue s.done := by
  obtain ⟨hne, hv, hc, heq⟩ := hl
  have hterm : s.log.unstable.term = s.abs.term := LogInv.accTerm_eq h
  have hlast : s.log.unstable.lastIndex = s.abs.lastIndex := LogInv.lastIndex_eq h
  unfold LogSlice.replace
  by_cases hold : t.term ≤ s.abs.term ∧ t.lastIndex < s.abs.lastIndex
  · have hr : s.log.restore t = none := by
      simp [RaftLog.restore, Unstable.restore, hterm, hlast, hold]
    rw [if_pos hold, hr]
    exact ⟨rfl, h⟩
  · cases hr : s.log.restore t with
    | none => simp [RaftLog.restore, Unstable.restore, hterm, hlast, hold] at hr
    | some l' =>
      rw [if_neg hold]
      exact ⟨rfl, LogInv.restore h hne hv hc heq hr⟩

/-- A legal operation returns, and preserves the relation. -/
theorem step_inv (h : s.Inv) {op : LogOp} (hl : s.Legal op) :
    Sat (s.step op) (fun _ => False) Inv := by
  cases op with
  | append a => exact (step_append h hl).2
  | maybeAppend a =>
    refine Sat.bind ((LogInv.maybeAppend h hl.1).mono ?_ fun _ hr => hr) fun r hr => ?_
    · rintro p ⟨-, e, he, hlo, hc, hno⟩
      rw [hl.2 e he hlo hc] at hno
      cases hno
    · rcases hr with ⟨rfl, hm⟩ | ⟨u, A', rfl, hm, h'⟩
      · change LogInv ((s.abs.merge a).getD s.abs) _ _ _
        rw [hm]
        exact h
      · change LogInv ((s.abs.merge a).getD s.abs) _ _ _
        rw [hm]
        exact h'
  | restore t => exact (step_restore h hl).2
  | commitTo mark =>
    refine Sat.bind ((LogInv.commitTo h mark).mono ?_ fun _ hr => hr) fun l' hl' => hl'.1
    rintro p ⟨-, hlt⟩
    exact absurd hl (not_le.mpr hlt)
  | ready => exact LogInv.ready h
  | execute =>
    unfold AsyncLog.step
    cases hq : s.queue with
    | nil => exact h
    | cons w queue =>
      have h' : LogInv s.abs s.log (w :: queue) s.done := hq ▸ h
      have haccepts : ∀ p, s.log.storage.write w = .error p → False := by
        intro p hp
        have hp' : p = .snapOutOfDate := h'.execute.stop hp
        obtain ⟨t, ht, hle⟩ := MemoryStorage.write_refused (hp' ▸ hp)
        have hlt := hl w (hq ▸ rfl) t ht
        omega
      exact Sat.bind (sat_iff.mpr ⟨haccepts, fun ms => h'.execute.elim⟩) fun ms hms => hms
  | ack w =>
    exact Sat.bind ((LogInv.ack h hl.1).mono (fun _ => hl.2) fun _ h' => h') fun l' h' => h'

/-- The relation holds along every run. -/
theorem reachable_inv {ms : MemoryStorage} {size : Nat}
    (hms : LogSlice.Chained ms.base ms.ents) (h : Reachable ms size s) : s.Inv := by
  induction h with
  | init hl => exact ((LogInv.init hms).elim hl).2
  | step _ hl hs ih => exact (step_inv ih hl).elim hs

variable [Codec]

/-- The raft log and storage agree with the log they stand for. -/
structure Consistent (s : AsyncLog) : Prop where
  /-- A pending snapshot ends where the unstable entries start. -/
  snapshot_prev : ∀ t ∈ s.log.unstable.snapshot, s.log.unstable.prev = t.id
  inProgress_ge : s.log.unstable.prev.index ≤ s.log.unstable.entryInProgress
  inProgress_le : s.log.unstable.entryInProgress ≤ s.log.lastIndex
  snapshotInProgress : s.log.unstable.snapshotInProgress = true →
    s.log.unstable.snapshot.isSome = true
  /-- With no snapshot pending, storage has the log up to `prev`, and still has it
  after any number of the queued writes. -/
  stable : s.log.unstable.snapshot = none → ∀ n,
    Sat ((s.queue.take n).foldlM MemoryStorage.write s.log.storage) refused
      (·.HoldsTo s.abs s.log.unstable.prev.index)
  firstIndex : s.log.firstIndex = s.abs.prev.index + 1
  lastIndex : s.log.lastIndex = s.abs.lastIndex
  term : ∀ i, s.log.term i = s.abs.readTerm i
  compacted : ∀ lo hi maxSize, lo ≤ hi → lo ≤ s.abs.prev.index →
    s.log.slice lo hi maxSize = .ok (.error .compacted)
  /-- A read returns a prefix of the entries asked for, never empty, and all of
  them when they are below the size limit. -/
  slice : ∀ lo hi maxSize, s.abs.prev.index < lo → lo ≤ hi → hi ≤ s.abs.lastIndex + 1 →
    ∃ n, s.log.slice lo hi maxSize = .ok (.ok ((s.abs.readEntries lo hi).take n)) ∧
      (lo < hi → 0 < n) ∧ (entsSize (s.abs.readEntries lo hi) < maxSize → hi - lo ≤ n)

theorem Inv.consistent (h : s.Inv) : s.Consistent where
  snapshot_prev := by
    intro t ht
    obtain ⟨_, hid, hprev⟩ := h.snapshot t ht
    have hfwd := congrArg LogSlice.prev h.unstable
    rw [hprev, LogSlice.forward_self] at hfwd
    rw [hid]
    exact hfwd
  inProgress_ge := h.inProgress_ge
  inProgress_le := (LogInv.lastIndex_eq h).symm ▸ h.inProgress_le
  snapshotInProgress := fun hp => Option.isSome_iff_ne_none.mpr (h.snapshotInProgress hp)
  stable := fun hs n => (h.stable hs).after n
  firstIndex := LogInv.firstIndex_eq h
  lastIndex := LogInv.lastIndex_eq h
  term := LogInv.term_eq h
  compacted := fun _ _ _ hle hlo => LogInv.slice_compacted h hle hlo
  slice := fun _ _ _ hlo hle hhi => LogInv.slice_eq h hlo hle hhi

end AsyncLog

open AsyncLog in
/-- In every state reached by legal operations, in any order, the raft log reads
the log it stands for, and storage holds that log up to `unstable.prev` whatever
is still queued; every legal operation is then carried out on both with the same
verdict. Slices of one term need not even come from one leader log: within a term
the raft log only ever grows at its end. -/
theorem asyncLog_refines [Codec] {ms : MemoryStorage} {size : Nat} {s : AsyncLog}
    (hms : LogSlice.Chained ms.base ms.ents) (h : Reachable ms size s) :
    s.Consistent ∧ ∀ op, s.Legal op → (∃ s', s.step op = .ok s' ∧ s'.Consistent) ∧
      match op with
      | .append a => (s.log.append a).isSome = (s.abs.extend a).isSome
      | .maybeAppend a => Returns (s.log.maybeAppend a) (·.isSome = (s.abs.merge a).isSome)
      | .restore t => (s.log.restore t).isSome = (s.abs.replace t).isSome
      | _ => True := by
  have hinv := reachable_inv hms h
  refine ⟨hinv.consistent, fun op hl => ⟨?_, ?_⟩⟩
  · have hstep := step_inv hinv hl
    cases hs : s.step op with
    | error p => exact (hstep.stop hs).elim
    | ok s' => exact ⟨s', rfl, (hstep.elim hs).consistent⟩
  cases op with
  | append a => exact (step_append hinv hl).1
  | maybeAppend a =>
    refine (LogInv.maybeAppend hinv hl.1).mono (fun _ _ => trivial) fun r hr => ?_
    rcases hr with ⟨rfl, hm⟩ | ⟨u, A', rfl, hm, -⟩
    · rw [hm]
      rfl
    · rw [hm]
      rfl
  | restore t => exact (step_restore hinv hl).1
  | _ => trivial

namespace AsyncLog

instance (l : RaftLog) (w : LogWrite) : Decidable (l.OvertakenBy w) := instDecidableAnd

instance (s : AsyncLog) : ∀ op, Decidable (s.Legal op)
  | .append _ => instDecidableEqBool _ _
  | .maybeAppend _ | .restore _ | .ack _ => instDecidableAnd
  | .commitTo _ => Nat.decLe _ _
  | .ready => isTrue trivial
  | .execute => inferInstanceAs (Decidable (∀ w ∈ s.queue.head?, _))

/-- Legal operations, one after the other. -/
def perform (s : AsyncLog) : List LogOp → Option AsyncLog
  | [] => some s
  | op :: ops =>
    if s.Legal op then
      match s.step op with
      | .ok s' => s'.perform ops
      | .error _ => none
    else none

theorem Reachable.perform {ms : MemoryStorage} {size : Nat} {s s' : AsyncLog} :
    ∀ {ops : List LogOp}, Reachable ms size s → s.perform ops = some s' → Reachable ms size s'
  | [], h, hp => by
    cases hp
    exact h
  | op :: ops, h, hp => by
    unfold AsyncLog.perform at hp
    split_ifs at hp with hl
    cases hs : s.step op with
    | error p =>
      rw [hs] at hp
      cases hp
    | ok s₁ =>
      rw [hs] at hp
      exact (h.step hl hs).perform hp

/-- The snapshot at index 5, of a leader of the term `term`. -/
def snapFive (term : Nat) : TermSnapshot :=
  ⟨term, { metadata := { term := 1, index := 5 } }⟩

/-- The first entry after it. -/
def six : Entry := { term := 1, index := 6 }

/-- A log over empty storage. -/
def opened : AsyncLog where
  log := { maxApplyingEntsSize := 100 }
  abs := {}

theorem reachable_opened : Reachable {} 100 opened := .init rfl

end AsyncLog

open AsyncLog in
/-- Entries that follow a snapshot are written after it, and acknowledged before it. And
storage refuses a snapshot that it has already. -/
theorem asyncLog_stops :
    (∃ s w, Reachable {} 100 s ∧ w ∈ s.done ∧ s.step (.ack w) = .error .ackedBeforeSnapshot) ∧
    ∃ s, Reachable {} 100 s ∧ s.step .execute = .error .snapOutOfDate := by
  constructor
  · have hrun : (opened.perform [.restore (snapFive 1), .ready, .append ⟨1, ⟨1, 5⟩, [six]⟩, .ready,
        .execute, .execute]).map
          (fun s => (decide (⟨none, [six], 1⟩ ∈ s.done), s.step (.ack ⟨none, [six], 1⟩))) =
        some (true, .error .ackedBeforeSnapshot) := by decide +kernel
    obtain ⟨s, hs, hobs⟩ := Option.map_eq_some_iff.mp hrun
    obtain ⟨hdone, hstep⟩ := Prod.mk.inj hobs
    exact ⟨s, _, reachable_opened.perform hs, of_decide_eq_true hdone, hstep⟩
  · have hrun : (opened.perform [.restore (snapFive 1), .ready, .restore (snapFive 2), .ready,
        .execute]).map (fun s => s.step .execute) = some (.error .snapOutOfDate) := by
      decide +kernel
    obtain ⟨s, hs, hstep⟩ := Option.map_eq_some_iff.mp hrun
    exact ⟨s, reachable_opened.perform hs, hstep⟩

open AsyncLog in
/-- A snapshot and two entries after it are written, the second one is overwritten by a later
leader, and the acknowledgement of the overwrite comes before that of the entries. -/
theorem asyncLog_refines_overwritten : ∃ s, Reachable {} 100 s ∧ s.log.unstable.prev = ⟨2, 7⟩ ∧
    s.log.unstable.snapshot = none ∧ @Consistent wireCodec s := by
  have hrun : (opened.perform [.restore (snapFive 1), .ready,
      .append ⟨1, ⟨1, 5⟩, [six, { term := 1, index := 7 }]⟩, .ready, .execute, .execute,
      .maybeAppend ⟨2, ⟨1, 6⟩, [{ term := 2, index := 7 }]⟩, .ready,
      .ack ⟨some (snapFive 1).snap, [], 1⟩, .execute,
      .ack ⟨none, [{ term := 2, index := 7 }], 2⟩,
      .ack ⟨none, [six, { term := 1, index := 7 }], 1⟩]).map
        (fun s => (s.log.unstable.prev, s.log.unstable.snapshot)) = some (⟨2, 7⟩, none) := by
    decide +kernel
  obtain ⟨s, hs, hobs⟩ := Option.map_eq_some_iff.mp hrun
  obtain ⟨hprev, hsnap⟩ := Prod.mk.inj hobs
  have hreach := reachable_opened.perform hs
  exact ⟨s, hreach, hprev, hsnap, (@asyncLog_refines wireCodec {} 100 s trivial hreach).1⟩

end Cockroach.Raft
