import Cockroach.Raft.LogReads
import Cockroach.Raft.Step

/-!
# The loop that sends appends (`for r.maybeSendAppend(m.From) {}`)

After an acknowledgement the leader sends as much as flow control allows. What bounds the
loop is `Progress.budget`: the entries not sent yet, and one message more while a probe or a
newer commit index is due. Every message costs at least one of it
(`maybeSendAppendFrom_spec`), so the loop ends, whatever the progress, the log, the size
limit and the storage (`sendAppendsFrom_spec`).

`Storage.Snapshot` may fail, which `MemoryStorage` never does; the functions here take its
result as an argument, and those of `State.lean` are the case of a snapshot that is there
(`maybeSendAppend_eq`).
-/

namespace Cockroach.Raft

open Lib

/-! ## The budget -/

namespace Progress

variable {pr pr' : Progress} {last commit entries bytes : Nat} {advanceCommit : Bool}

/-- A message without entries is due: no append was sent lately, or the commit index was
not. -/
def due (pr : Progress) (commit : Nat) : Bool :=
  !pr.msgAppProbesPaused || decide (pr.sentCommit < commit)

/-- How many messages the progress admits before the follower is heard of again. -/
def budget (pr : Progress) (last commit : Nat) : Nat :=
  match pr.state with
  | .probe => if pr.msgAppProbesPaused then 0 else 1
  | .replicate => last + 1 - pr.next + (pr.due commit).toNat
  | .snapshot => 0

/-- If nothing else is due, a message is sent for its entries. -/
theorem canSendEntries_of_not_due (hstate : pr.state = .replicate) (hdue : pr.due commit = false)
    (h : pr.shouldSendMsgApp last commit advanceCommit = true) :
    pr.canSendEntries last = true := by
  obtain ⟨hpaused, hsent⟩ := Bool.or_eq_false_iff.mp hdue
  rw [Bool.not_eq_false'] at hpaused
  have hcommit : ¬ commit > pr.sentCommit := of_decide_eq_false hsent
  by_contra hentries
  simp [shouldSendMsgApp, hstate, hentries, canBumpCommit, hpaused, hcommit] at h

theorem next_le_of_canSendEntries (h : pr.canSendEntries last = true) : pr.next ≤ last :=
  of_decide_eq_true (Bool.and_eq_true_iff.mp h).1

/-- A message is sent on a budget only. -/
theorem budget_pos (h : pr.shouldSendMsgApp last commit advanceCommit = true) :
    0 < pr.budget last commit := by
  unfold budget
  cases hstate : pr.state with
  | probe =>
    have hrun : pr.msgAppProbesPaused = false := by
      simpa [shouldSendMsgApp, hstate] using h
    simp [hrun]
  | snapshot => simp [shouldSendMsgApp, hstate] at h
  | replicate =>
    cases hdue : pr.due commit with
    | true => exact Nat.succ_pos _
    | false =>
      have hnext := next_le_of_canSendEntries (canSendEntries_of_not_due hstate hdue h)
      dsimp only
      omega

theorem sentEntries_sat (pr : Progress) (entries bytes : Nat) :
    Sat (pr.sentEntries entries bytes) (fun p => p = .inflightsFull ∨ p = .indexOutOfRange)
      fun pr' => pr'.state = pr.state ∧ pr'.msgAppProbesPaused = true ∧
        (pr.state = .replicate → pr'.next = pr.next + entries) := by
  unfold sentEntries
  refine .ite (fun _ => ?_) fun hnone => ⟨rfl, rfl, fun hstate => ?_⟩
  · refine .bind (P := fun _ => True) ?_ fun _ _ => ⟨rfl, rfl, fun _ => rfl⟩
    unfold Inflights.add
    refine sat_assert_bind (fun _ => .inl rfl) fun _ => ?_
    exact sat_assert_bind (fun _ => .inr rfl) fun _ => trivial
  · have hzero : entries = 0 := by
      by_contra hpos
      exact hnone ⟨hstate, Nat.pos_of_ne_zero hpos⟩
    show pr.next = _
    omega

theorem maybeUpdateSentCommit_spec (pr : Progress) (commit : Nat) :
    (pr.maybeUpdateSentCommit commit).state = pr.state ∧
      (pr.maybeUpdateSentCommit commit).next = pr.next ∧
      (pr.maybeUpdateSentCommit commit).msgAppProbesPaused = pr.msgAppProbesPaused ∧
      commit ≤ (pr.maybeUpdateSentCommit commit).sentCommit := by
  unfold maybeUpdateSentCommit
  split
  · exact ⟨rfl, rfl, rfl, le_rfl⟩
  · exact ⟨rfl, rfl, rfl, by omega⟩

/-- A `MsgApp` costs one of the budget: it carries an entry, or nothing more is due after
it. -/
theorem budget_sentApp {entries : List Entry}
    (h : pr.shouldSendMsgApp last commit advanceCommit = true)
    (hentries : pr.canSendEntries last = true → entries ≠ [])
    (hpr' : pr'.state = pr.state ∧ pr'.msgAppProbesPaused = true ∧
      (pr.state = .replicate → pr'.next = pr.next + entries.length)) :
    (pr'.maybeUpdateSentCommit commit).budget last commit < pr.budget last commit := by
  have hpos := budget_pos h
  obtain ⟨hstate, hnext, hpaused, hsent⟩ := maybeUpdateSentCommit_spec pr' commit
  obtain ⟨hstate', hpaused', hnext'⟩ := hpr'
  have hdue : (pr'.maybeUpdateSentCommit commit).due commit = false := by
    simp [due, hpaused, hpaused', hsent]
  unfold budget at hpos ⊢
  rw [hstate, hstate', hnext, hpaused, hpaused', hdue]
  cases hrole : pr.state with
  | probe =>
    rw [hrole] at hpos
    exact hpos
  | snapshot =>
    rw [hrole] at hpos
    cases hpos
  | replicate =>
    rw [hrole] at hpos
    rw [hnext' hrole]
    dsimp only [Bool.toNat_false] at hpos ⊢
    by_cases hlen : entries = []
    · -- Without entries something else was due.
      have hmore : pr.due commit = true := by
        by_contra hnot
        exact hentries (canSendEntries_of_not_due hrole (Bool.not_eq_true _ ▸ hnot) h) hlen
      rw [hmore, hlen]
      exact Nat.lt_succ_self _
    · have hlen := List.length_pos_iff.mpr hlen
      omega

theorem budget_le (pr : Progress) (last commit : Nat) :
    pr.budget last commit ≤ last + 1 - pr.next + 1 := by
  have hdue : (pr.due commit).toNat ≤ 1 := Bool.toNat_le _
  unfold budget
  cases pr.state with
  | probe =>
    dsimp only
    split <;> omega
  | replicate => exact Nat.add_le_add_left hdue _
  | snapshot => exact Nat.zero_le _

end Progress

/-! ## The loop -/

/-- `raftLog.snapshot`, with what `Storage.Snapshot` returns. -/
def RaftLog.snapshotFrom (l : RaftLog) (snap : Except StorageErr Snapshot) :
    Except StorageErr Snapshot :=
  match l.unstable.snapshot with
  | some s => .ok s
  | none => snap

namespace RaftNode

variable {snap : Except StorageErr Snapshot} {env : Env} {r : RaftNode} {dst : PeerID}
  {pr : Progress}

/-- `raft.maybeSendSnapshot`, with what `Storage.Snapshot` returns. -/
def maybeSendSnapshotFrom (snap : Except StorageErr Snapshot) (r : RaftNode) (dst : PeerID)
    (pr : Progress) : Except Panic (Bool × RaftNode) := do
  if !pr.recentActive then return (false, r)
  match r.raftLog.snapshotFrom snap with
  | .error .snapshotTemporarilyUnavailable => return (false, r)
  | .error _ => throw .snapshotError
  | .ok snapshot =>
    assertTrue (isEmptySnap snapshot = false) .emptySnapshot
    let r := r.setProgress dst (pr.becomeSnapshot snapshot.metadata.index)
    let r ← r.send { dst, type := .snap, snapshot := some snapshot }
    return (true, r)

/-- `raft.maybeSendAppend`, with what `Storage.Snapshot` returns. -/
def maybeSendAppendFrom [Codec] (snap : Except StorageErr Snapshot) (env : Env) (r : RaftNode)
    (dst : PeerID) : Except Panic (Bool × RaftNode) := do
  match r.trk[dst]? with
  | none => throw .nilProgress
  | some pr =>
    let last := r.raftLog.lastIndex
    let commit := r.raftLog.committed
    if !pr.shouldSendMsgApp last commit env.advanceCommitViaMsgAppOnly then return (false, r)
    let prevIndex := pr.next - 1
    match r.raftLog.term prevIndex with
    | .error _ => r.maybeSendSnapshotFrom snap dst pr
    | .ok prevTerm =>
      match ← r.entriesToSend pr with
      | .error _ => r.maybeSendSnapshotFrom snap dst pr
      | .ok entries =>
        let r ← r.send { dst, type := .app, index := prevIndex, logTerm := prevTerm,
                         entries, commit, matchIdx := pr.matchIdx }
        let pr ← pr.sentEntries entries.length (payloadsSize entries)
        return (true, r.setProgress dst (pr.maybeUpdateSentCommit commit))

/-- `for r.maybeSendAppend(dst) {}`, for at most `fuel` rounds. -/
def sendAppendsFrom [Codec] (snap : Except StorageErr Snapshot) (env : Env) :
    Nat → RaftNode → PeerID → Except Panic RaftNode
  | 0, _, _ => throw .sendLoop
  | fuel + 1, r, dst => do
      let (sent, r) ← r.maybeSendAppendFrom snap env dst
      if sent then sendAppendsFrom snap env fuel r dst else return r

theorem maybeSendSnapshot_eq (r : RaftNode) (dst : PeerID) (pr : Progress) :
    r.maybeSendSnapshotFrom (.ok r.raftLog.storage.snapshot) dst pr =
      r.maybeSendSnapshot dst pr := by
  have hsnap : r.raftLog.snapshotFrom (.ok r.raftLog.storage.snapshot) =
      .ok r.raftLog.snapshot := by
    unfold RaftLog.snapshotFrom RaftLog.snapshot
    cases r.raftLog.unstable.snapshot <;> rfl
  unfold maybeSendSnapshotFrom maybeSendSnapshot
  rw [hsnap]

/-- With a snapshot in storage these are the functions of the model. -/
theorem maybeSendAppend_eq [Codec] (env : Env) (r : RaftNode) (dst : PeerID) :
    r.maybeSendAppendFrom (.ok r.raftLog.storage.snapshot) env dst = r.maybeSendAppend env dst := by
  unfold maybeSendAppendFrom
  simp only [maybeSendSnapshot_eq]
  rfl

theorem send_sat {m : Message} (hm : m.type = .app ∨ m.type = .snap) :
    Sat (r.send m) (· ≠ .sendLoop) fun r' => ∃ m', r' = { r with msgs := r.msgs ++ [m'] } := by
  have hattach : ∀ m : Message, (m.type = .app ∨ m.type = .snap) →
      Sat (r.attachTerm m) (· ≠ .sendLoop) fun m' => m'.type = .app ∨ m'.type = .snap := by
    intro m hm
    unfold attachTerm
    rcases hm with hm | hm <;> rw [hm] <;>
      exact sat_assert_bind (fun _ => Panic.noConfusion) fun _ => by simp
  unfold send
  refine .bind (hattach _ ?_) fun m' hm' => ?_
  · split
    · exact hm
    · exact hm
  · have hafter : sentAfterAppend m'.type = false := by
      rcases hm' with hm' | hm' <;> rw [hm'] <;> rfl
    rw [hafter]
    exact sat_assert_bind (fun _ => Panic.noConfusion) fun _ => ⟨m', rfl⟩

/-- What one round leaves of the budget of the progress of `dst`. -/
structure Spent (r r' : RaftNode) (dst : PeerID) (pr : Progress) : Prop where
  raftLog : r'.raftLog = r.raftLog
  msgsAfterAppend : r'.msgsAfterAppend = r.msgsAfterAppend
  msgs : ∃ m, r'.msgs = r.msgs ++ [m]
  budget : ∃ pr', r'.trk[dst]? = some pr' ∧
    pr'.budget r.raftLog.lastIndex r.raftLog.committed <
      pr.budget r.raftLog.lastIndex r.raftLog.committed

theorem maybeSendSnapshotFrom_sat (hpos : 0 < pr.budget r.raftLog.lastIndex r.raftLog.committed) :
    Sat (r.maybeSendSnapshotFrom snap dst pr) (· ≠ .sendLoop) fun x =>
      if x.1 then r.Spent x.2 dst pr else x.2 = r := by
  unfold maybeSendSnapshotFrom
  refine .ite (fun _ => rfl) fun _ => ?_
  cases r.raftLog.snapshotFrom snap with
  | error err =>
    cases err with
    | snapshotTemporarilyUnavailable => rfl
    | _ => exact Panic.noConfusion
  | ok s =>
    refine sat_assert_bind (fun _ => Panic.noConfusion) fun _ => ?_
    refine .bind (send_sat (.inr rfl)) fun r' hr' => ?_
    obtain ⟨m, rfl⟩ := hr'
    exact {
      raftLog := rfl
      msgsAfterAppend := rfl
      msgs := ⟨m, rfl⟩
      budget := ⟨_, Std.ExtTreeMap.getElem?_insert_self, hpos⟩ }

variable [Codec]

/-- A round that sends something spends some of the budget. -/
theorem maybeSendAppendFrom_sat (hpr : r.trk[dst]? = some pr) :
    Sat (r.maybeSendAppendFrom snap env dst) (· ≠ .sendLoop) fun x =>
      if x.1 then r.Spent x.2 dst pr else x.2 = r := by
  unfold maybeSendAppendFrom
  rw [hpr]
  dsimp only
  refine .ite (fun _ => rfl) fun hsend => ?_
  rw [Bool.not_eq_true, Bool.not_eq_false'] at hsend
  have hpos := Progress.budget_pos hsend
  cases r.raftLog.term (pr.next - 1) with
  | error err => exact maybeSendSnapshotFrom_sat hpos
  | ok prevTerm =>
    have hread : Sat (r.entriesToSend pr) (· ≠ .sendLoop) fun x =>
        ∀ es, x = .ok es → pr.canSendEntries r.raftLog.lastIndex = true → es ≠ [] := by
      unfold entriesToSend
      refine .ite (fun hcan => ?_) fun hnot _ _ hcan => absurd hcan hnot
      refine (r.raftLog.entries_sat _ _).mono ?_ fun x hx es hes hcan =>
        hx es hes (Progress.next_le_of_canSendEntries hcan)
      rintro p (rfl | rfl | rfl | rfl) <;> exact Panic.noConfusion
    refine .bind hread fun x hx => ?_
    cases x with
    | error err => exact maybeSendSnapshotFrom_sat hpos
    | ok entries =>
      refine .bind (send_sat (.inl rfl)) fun r' hr' => ?_
      obtain ⟨m, rfl⟩ := hr'
      refine .bind ((pr.sentEntries_sat _ _).mono ?_ fun _ h => h) fun pr' hpr' => ?_
      · rintro p (rfl | rfl) <;> exact Panic.noConfusion
      · exact {
          raftLog := rfl
          msgsAfterAppend := rfl
          msgs := ⟨m, rfl⟩
          budget := ⟨_, Std.ExtTreeMap.getElem?_insert_self,
            Progress.budget_sentApp hsend (hx entries rfl) hpr'⟩ }

/-- The loop runs out of rounds only with fewer of them than the budget, and sends no more
messages than that. -/
theorem sendAppendsFrom_sat {fuel : Nat} (hpr : r.trk[dst]? = some pr) :
    Sat (sendAppendsFrom snap env fuel r dst)
      (fun p => p = .sendLoop → fuel ≤ pr.budget r.raftLog.lastIndex r.raftLog.committed)
      fun r' => r'.msgsAfterAppend = r.msgsAfterAppend ∧ ∃ ms, r'.msgs = r.msgs ++ ms ∧
        ms.length ≤ pr.budget r.raftLog.lastIndex r.raftLog.committed := by
  induction fuel generalizing r pr with
  | zero => exact fun _ => Nat.zero_le _
  | succ fuel ih =>
    unfold sendAppendsFrom
    refine .bind ((maybeSendAppendFrom_sat hpr).mono ?_ fun _ h => h) fun x hx => ?_
    · exact fun p hp hloop => absurd hloop hp
    · obtain ⟨sent, r'⟩ := x
      cases sent with
      | false =>
        obtain rfl : r' = r := hx
        exact ⟨rfl, [], (List.append_nil _).symm, Nat.zero_le _⟩
      | true =>
        have hspent : r.Spent r' dst pr := hx
        obtain ⟨m, hm⟩ := hspent.msgs
        obtain ⟨pr', hpr', hlt⟩ := hspent.budget
        rw [← hspent.raftLog] at hlt ⊢
        refine (ih hpr').mono (fun p hp hloop => ?_) fun r'' hr'' => ?_
        · exact (Nat.succ_le_succ (hp hloop)).trans hlt
        · obtain ⟨hafter, ms, hms, hlen⟩ := hr''
          refine ⟨hafter.trans hspent.msgsAfterAppend, m :: ms, ?_, ?_⟩
          · rw [hms, hm, List.append_assoc, List.singleton_append]
          · rw [List.length_cons]
            omega

theorem sendAppends_eq (env : Env) (fuel : Nat) (r : RaftNode) (dst : PeerID) :
    sendAppendsFrom (.ok r.raftLog.storage.snapshot) env fuel r dst =
      sendAppends env fuel r dst := by
  induction fuel generalizing r with
  | zero => rfl
  | succ fuel ih =>
    unfold sendAppendsFrom sendAppends
    have hround := maybeSendAppend_eq env r dst
    rw [hround]
    cases hsent : r.maybeSendAppend env dst with
    | error p => rfl
    | ok x =>
      obtain ⟨sent, r'⟩ := x
      cases sent with
      | false => rfl
      | true =>
        have hlog : r'.raftLog = r.raftLog := by
          cases hpr : r.trk[dst]? with
          | none =>
            rw [maybeSendAppend, hpr] at hsent
            cases hsent
          | some pr =>
            have hspent : r.Spent r' dst pr :=
              (maybeSendAppendFrom_sat hpr).elim (hround.trans hsent)
            exact hspent.raftLog
        have hrest := ih r'
        rw [hlog] at hrest
        exact hrest

/-- The rounds that `sendAll` has are enough. -/
theorem sendAll_ne_sendLoop (hpr : r.trk[dst]? = some pr) :
    r.sendAll env dst ≠ .error .sendLoop := by
  unfold sendAll
  split
  · exact nofun
  · intro hloop
    rw [← sendAppends_eq] at hloop
    have hle := (sendAppendsFrom_sat hpr).stop hloop rfl
    have hbudget := pr.budget_le r.raftLog.lastIndex r.raftLog.committed
    omega

/-- The loop of `stepLeader` ends, whatever the progress is; and as long as
`Match < Next` it sends at most `lastIndex - Match + 3` messages. -/
theorem send_loop_bounded (hpr : r.trk[dst]? = some pr) : (∀ fuel, r.raftLog.lastIndex + 3 ≤ fuel →
      sendAppendsFrom snap env fuel r dst ≠ .error .sendLoop) ∧
    (pr.matchIdx < pr.next → ∀ fuel r', sendAppendsFrom snap env fuel r dst = .ok r' →
      r'.msgsAfterAppend = r.msgsAfterAppend ∧
      ∃ ms, r'.msgs = r.msgs ++ ms ∧ ms.length ≤ r.raftLog.lastIndex - pr.matchIdx + 3) := by
  have hbudget := pr.budget_le r.raftLog.lastIndex r.raftLog.committed
  refine ⟨fun fuel hfuel hloop => ?_, fun hnext fuel r' hr' => ?_⟩
  · have hle := (sendAppendsFrom_sat hpr).stop hloop rfl
    omega
  · obtain ⟨hafter, ms, hms, hlen⟩ := (sendAppendsFrom_sat hpr).elim hr'
    exact ⟨hafter, ms, hms, by omega⟩

end RaftNode

def laggingProgress : Progress where
  next := 1
  state := .replicate
  inflights := .new 8 0
  recentActive := true

/-- A leader with three entries that may not put more than one into a message. -/
def laggingLeader : RaftNode where
  id := 1
  term := 1
  state := .leader
  maxMsgSize := 0
  raftLog := {
    storage := {
      ents := [{ term := 1, index := 1 }, { term := 1, index := 2 }, { term := 1, index := 3 }] }
    unstable := { term := 1, prev := { term := 1, index := 3 }, entryInProgress := 3 } }
  trk := (∅ : ProgressMap).insert 2 laggingProgress

/-- It sends them one by one and stops. -/
theorem send_loop_bounded_lagging : ∃ r' ms,
    @RaftNode.sendAppendsFrom wireCodec (.error .snapshotTemporarilyUnavailable) {} 6
      laggingLeader 2 = .ok r' ∧ r'.msgs = ms ∧ ms.length ≤ 6 := by
  let _ := wireCodec
  have hrun : (RaftNode.sendAppendsFrom (.error .snapshotTemporarilyUnavailable) {} 6
      laggingLeader 2 >>= fun r' => pure r'.msgs.length : Except Panic Nat) = .ok 3 := by
    decide +kernel
  obtain ⟨r', hr', -⟩ := bind_eq_ok.mp hrun
  have hpr : laggingLeader.trk[2]? = some laggingProgress :=
    Std.ExtTreeMap.getElem?_insert_self
  obtain ⟨-, ms, hms, hlen⟩ :=
    (RaftNode.send_loop_bounded hpr).2 (by decide) 6 r' hr'
  exact ⟨r', ms, hr', hms, hlen⟩

end Cockroach.Raft
