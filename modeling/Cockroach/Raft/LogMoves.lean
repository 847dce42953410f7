import Cockroach.Raft.StepWalk

/-!
# What a call does to the log

A small step of a node leaves its log alone or moves it in one of seven ways
(`LogMove`). As long as the storage responses a node hears are responses to
writes that were performed (`Truthful`), every move keeps `LogInv`: no other
message can upset the log, since followers check what they are sent.
-/

namespace Cockroach.Raft

open Lib MemoryStorage RaftLog RaftNode

/-- One change of the log, in a call about the message `inp`. -/
inductive LogMove [Codec] (inp : Message) (l : RaftLog) : RaftLog → Prop
  | append {a : LogSlice} {l' : RaftLog} (hv : a.valid = true) (h : l.append a = some l') :
      LogMove inp l l'
  | accept {a : LogSlice} {l' : RaftLog} (hv : a.valid = true) (hc : l.committed ≤ a.prev.index)
      (h : l.maybeAppend a = .ok (some l')) : LogMove inp l l'
  | commit {mark : LogMark} {l' : RaftLog} (h : l.commitTo mark = .ok l') : LogMove inp l l'
  | restore {l' : RaftLog} (hm : inp.type = .snap)
      (hv : (RaftNode.msgSnapshot inp).valid = true)
      (hgt : l.committed < (RaftNode.msgSnapshot inp).lastIndex)
      (h : l.restore (RaftNode.msgSnapshot inp) = some l') : LogMove inp l l'
  | ackSnapshot {s : Snapshot} {l' : RaftLog} (hm : inp.type = .storageAppendResp)
      (hs : inp.snapshot = some s) (h : l.appliedSnap (some s) = .ok l') : LogMove inp l l'
  | ackEntries {l' : RaftLog} (hm : inp.type = .storageAppendResp) (hi : inp.index ≠ 0)
      (h : l.stableTo ⟨inp.logTerm, inp.index⟩ = .ok l') : LogMove inp l l'
  | ackApply {e : Entry} {l' : RaftLog} (hm : inp.type = .storageApplyResp)
      (he : inp.entries.getLast? = some e)
      (h : l.appliedTo (max e.index l.applied) (entsSize inp.entries) = .ok l') :
      LogMove inp l l'

/-- Changes of the log in a row. -/
abbrev LogMoves [Codec] (inp : Message) : RaftLog → RaftLog → Prop :=
  Relation.ReflTransGen (LogMove inp)

namespace RaftNode

theorem post_raftLog (r : RaftNode) (m : Message) : (r.post m).raftLog = r.raftLog := by
  unfold post
  split <;> rfl

theorem mem_post_msgsAfterAppend {r : RaftNode} {m m' : Message}
    (h : m ∈ (r.post m').msgsAfterAppend) :
    m ∈ r.msgsAfterAppend ∨ sentAfterAppend m.type = true := by
  unfold post at h
  split at h
  · rename_i hs
    rcases List.mem_append.mp h with h | h
    · exact .inl h
    · rw [List.mem_singleton.mp h]
      exact .inr hs
  · exact .inl h

variable [Codec] {env : Env} {inp : Message} {r r' : RaftNode}

theorem Micro.logMoves (h : Micro env inp r r') : LogMoves inp r.raftLog r'.raftLog := by
  cases h with
  | quiet h => rw [h.raftLog]
  | send h => rw [post_raftLog]
  | follow h => simp [asFollower, resetRest, abortLeaderTransfer]; exact .refl
  | campaign h => simp [asCandidate, resetRest, abortLeaderTransfer]; exact .refl
  | preCampaign h => exact .refl
  | lead h => exact .refl
  | record h => exact .refl
  | recordPre h => exact .refl
  | propose hs hlast hv hl => exact .single (.append hv hl)
  | matched hs ht hm hk hlt hr ha => rw [hr]
  | commit hs hlt hm hl | heartbeatCommit hs ht hm ha hl | snapCommit hs ht hm hv hgt hmt hl =>
    exact .single (.commit hl)
  | accept hs ht hm hv hc hl hl' =>
    exact .trans (.single (.accept hv hc hl)) (.single (.commit hl'))
  | ackCommitted => exact .refl
  | snapRestore hs ht hm hv hgt hl => exact .single (.restore hm hv hgt hl)
  | grant => exact .refl
  | hear => exact .refl
  | forget => exact .refl
  | deFortify => exact .refl
  | fortify => exact .refl
  | ackSnapshot hm hs hl => exact .single (.ackSnapshot hm hs hl)
  | ackEntries hm hi hl => exact .single (.ackEntries hm hi hl)
  | ackApply hm he hl => exact .single (.ackApply hm he hl)

theorem Steps.logMoves (h : Steps env inp r r') : LogMoves inp r.raftLog r'.raftLog := by
  induction h with
  | refl => exact .refl
  | tail _ hstep ih => exact ih.trans hstep.logMoves

/-- Only responses wait for the append thread. -/
theorem Micro.afterAppend {m : Message} (h : Micro env inp r r') (hm : m ∈ r'.msgsAfterAppend) :
    m ∈ r.msgsAfterAppend ∨ sentAfterAppend m.type = true := by
  cases h with
  | quiet _ _ ha => rw [ha] at hm; exact .inl hm
  | send | ackCommitted => exact mem_post_msgsAfterAppend hm
  | follow => simp [asFollower, resetRest, abortLeaderTransfer] at hm; exact .inl hm
  | campaign => simp [asCandidate, resetRest, abortLeaderTransfer] at hm; exact .inl hm
  | propose | accept | snapRestore | grant =>
    have hpost := mem_post_msgsAfterAppend hm
    exact hpost
  | matched _ _ _ _ _ hr => rw [hr] at hm; exact .inl hm
  | _ => exact .inl hm

theorem Steps.afterAppend {m : Message} (h : Steps env inp r r') (hm : m ∈ r'.msgsAfterAppend) :
    m ∈ r.msgsAfterAppend ∨ sentAfterAppend m.type = true := by
  induction h with
  | refl => exact .inl hm
  | tail _ hstep ih =>
    rcases hstep.afterAppend hm with h | h
    · exact ih h
    · exact .inr h

end RaftNode

/-! ## The hard state does not matter to the log -/

theorem MemoryStorage.write_setHardState (hs : HardState) (ms : MemoryStorage) (w : LogWrite) :
    (ms.setHardState hs).write w = (ms.write w).map (·.setHardState hs) := by
  have happend : ∀ (ms : MemoryStorage) (es : List Entry),
      (ms.setHardState hs).append es = (ms.append es).map (·.setHardState hs) := by
    intro ms es
    cases es with
    | nil => rfl
    | cons e es =>
      by_cases h : e.index + (e :: es).length - 1 < ms.base.index + 1
      · simp only [append, setHardState, firstIndex, h, if_true]
        rfl
      · by_cases h' : max (ms.base.index + 1) e.index - ms.base.index ≤ ms.ents.length + 1
        · simp only [append, setHardState, firstIndex, h, if_false, assertTrue, h', if_true]
          rfl
        · simp only [append, setHardState, firstIndex, h, if_false, assertTrue, h']
          rfl
  unfold write
  cases w.snapshot with
  | none => exact happend ms w.entries
  | some s =>
    by_cases h : ms.snapshot.metadata.index ≥ s.metadata.index
    · simp only [applySnapshot, setHardState, h, if_true]
      rfl
    · simp only [applySnapshot, setHardState, h, if_false]
      exact happend { ms with snapshot := s, base := s.id, ents := [] } w.entries

theorem LogInv.setHardState {A : LogSlice} {l : RaftLog} {queue done : List LogWrite}
    (h : LogInv A l queue done) (hs : HardState) :
    LogInv A { l with storage := l.storage.setHardState hs } queue done :=
  { h with
    stable := fun hn => (h.stable hn).map (write_setHardState hs) fun _ hm => { hm with }
    tail := fun hn => (h.tail hn).map (write_setHardState hs) fun _ hm => { hm with }
    done := fun w hw => (h.done w hw).map (write_setHardState hs)
      fun _ hm => { hm with entries := fun ht hlt => { hm.entries ht hlt with } }
    queued := h.queued.map (write_setHardState hs)
      fun _ _ hm => { hm with entries := fun ht hlt => { hm.entries ht hlt with } } }

/-! ## What moves leave alone -/

theorem truncateAndAppend_frame (u : Unstable) (a : LogSlice) :
    Returns (u.truncateAndAppend a) fun o => ∀ u' ∈ o, u'.snapshot = u.snapshot ∧
      u'.snapshotInProgress = u.snapshotInProgress := by
  have hnone : ∀ u' ∈ (none : Option Unstable), u'.snapshot = u.snapshot ∧
      u'.snapshotInProgress = u.snapshotInProgress := by
    intro u' h
    cases h
  unfold Unstable.truncateAndAppend
  refine Sat.ite (fun _ => hnone) fun _ => Sat.ite (fun _ => ?_) fun _ =>
    Sat.ite (fun _ => hnone) fun _ => Sat.ite (fun _ => hnone) fun _ => ?_
  · rintro u' ⟨⟩
    exact ⟨rfl, rfl⟩
  · refine Returns.seq fun _ _ => ?_
    rintro u' ⟨⟩
    exact ⟨rfl, rfl⟩

/-- A follower's append keeps a pending snapshot and the cursors. -/
theorem maybeAppend_frame (l : RaftLog) (a : LogSlice) :
    Returns (l.maybeAppend a) fun o => ∀ l' ∈ o, ∃ u, l' = { l with unstable := u } ∧
      u.snapshot = l.unstable.snapshot ∧
      u.snapshotInProgress = l.unstable.snapshotInProgress := by
  unfold maybeAppend
  cases l.matchSlice a with
  | none =>
    rintro l' ⟨⟩
  | some m =>
    dsimp only
    cases (a.forward m).entries with
    | nil =>
      rintro l' ⟨⟩
      exact ⟨l.unstable, rfl, rfl, rfl⟩
    | cons e es =>
      refine Returns.seq fun _ _ => Sat.bind (truncateAndAppend_frame _ _) fun o ho => ?_
      intro l' hl'
      obtain ⟨u, hu, rfl⟩ := Option.map_eq_some_iff.mp hl'
      exact ⟨u, rfl, ho u hu⟩

/-- A message whose snapshot is ahead of anything carries one. -/
theorem snapshot_eq_of_lt {inp : Message} {i : Nat} (h : i < (msgSnapshot inp).lastIndex) :
    inp.snapshot = some (msgSnapshot inp).snap := by
  unfold msgSnapshot at h ⊢
  cases hs : inp.snapshot with
  | none =>
    rw [hs] at h
    exact absurd h (Nat.not_lt_zero _)
  | some s => rfl

/-- Storage is written by the append thread only, and a new pending snapshot is
the one of the message. -/
theorem LogMove.frame [Codec] {inp : Message} {l l' : RaftLog} (h : LogMove inp l l') :
    l'.storage = l.storage ∧ ∀ s ∈ l'.unstable.snapshot, s ∈ l.unstable.snapshot ∨
      inp.type = .snap ∧ inp.snapshot = some s := by
  cases h with
  | append hv h =>
    rw [append_eq_some h]
    exact ⟨rfl, fun s hs => .inl hs⟩
  | accept hv hc h =>
    obtain ⟨u, rfl, hs, -⟩ := (maybeAppend_frame _ _).elim h l' rfl
    exact ⟨rfl, fun s h => .inl (hs ▸ h)⟩
  | commit h =>
    rcases commitTo_eq_ok h with rfl | ⟨-, -, rfl⟩
    · exact ⟨rfl, fun s hs => .inl hs⟩
    · exact ⟨rfl, fun s hs => .inl hs⟩
  | restore hm hv hgt h =>
    obtain ⟨u, rfl, hu, -⟩ := restore_eq_some h
    refine ⟨rfl, fun s hs => .inr ⟨hm, ?_⟩⟩
    rw [snapshot_eq_of_lt hgt, ← hu]
    exact hs
  | ackSnapshot hm hs h =>
    obtain ⟨_, -, h⟩ := bind_eq_ok.mp h
    cases h
    refine ⟨rfl, fun s hs => .inl ?_⟩
    unfold stableSnapTo Unstable.stableSnapTo at hs
    split_ifs at hs
    · cases hs
    · exact hs
  | ackEntries hm hne h =>
    rcases stableTo_eq_ok h with rfl | ⟨-, -, -, rfl⟩
    · exact ⟨rfl, fun s hs => .inl hs⟩
    · exact ⟨rfl, fun s hs => .inl hs⟩
  | ackApply hm he h =>
    obtain ⟨_, -, h⟩ := bind_eq_ok.mp h
    cases h
    exact ⟨rfl, fun s hs => .inl hs⟩

theorem RaftNode.Steps.storage [Codec] {env : Env} {inp : Message} {r r' : RaftNode}
    (h : Steps env inp r r') : r'.raftLog.storage = r.raftLog.storage := by
  have hmoves := h.logMoves
  generalize r'.raftLog = l at hmoves
  induction hmoves with
  | refl => rfl
  | tail _ hm ih => exact hm.frame.1.trans ih

/-! ## Moves keep the log in order -/

/-- A storage response is one to a write that was performed. -/
def Truthful (done : List LogWrite) (inp : Message) : Prop :=
  inp.type = .storageAppendResp → ∃ w ∈ done, inp.snapshot = w.snapshot ∧ inp.index = w.index ∧
    (w.index ≠ 0 → inp.logTerm = w.term)

namespace LogMove

variable [Codec] {inp : Message} {A : LogSlice} {l l' : RaftLog} {queue done : List LogWrite}

/-- Every move keeps the log in order, and where it starts: only a snapshot
changes that. -/
theorem logInv (h : LogMove inp l l') (hi : LogInv A l queue done) (ht : Truthful done inp) :
    ∃ A', LogInv A' l' queue done ∧
      (A'.prev = A.prev ∨ ∃ s ∈ l'.unstable.snapshot, l'.unstable.snapshotInProgress = false ∧
        l.committed < s.metadata.index) := by
  cases h with
  | append hv h =>
    rcases hi.append hv with ⟨-, hno⟩ | ⟨u, hu, -, -, hi'⟩
    · rw [hno] at h
      cases h
    · rw [hu] at h
      cases h
      exact ⟨_, hi', .inl rfl⟩
  | accept hv hc h =>
    rcases (hi.maybeAppend hv).elim h with ⟨hno, -⟩ | ⟨u, A', hu, hmerge, hi'⟩
    · cases hno
    · cases hu
      exact ⟨A', hi', .inl (LogSlice.merge_prev hmerge)⟩
  | commit h => exact ⟨A, ((hi.commitTo _).elim h).1, .inl rfl⟩
  | restore hm hv hgt h =>
    have hne : isEmptySnap (msgSnapshot inp).snap = false := by
      have : (msgSnapshot inp).snap.metadata.index ≠ 0 := Nat.ne_of_gt (Nat.zero_lt_of_lt hgt)
      simpa [isEmptySnap] using this
    refine ⟨_, hi.restore hne hv hgt.le (fun heq => absurd heq hgt.ne) h, .inr ?_⟩
    obtain ⟨u, rfl, hu, hnew⟩ := restore_eq_some h
    exact ⟨_, hu, hnew, hgt⟩
  | ackSnapshot hm hs h =>
    obtain ⟨w, hw, hsnap, -, -⟩ := ht hm
    rw [← hs, hsnap] at h
    exact ⟨A, ((hi.appliedSnap hw).elim h).1, .inl rfl⟩
  | ackEntries hm hne h =>
    obtain ⟨w, hw, -, hidx, hterm⟩ := ht hm
    rw [hidx] at hne
    rw [hterm hne, hidx] at h
    exact ⟨A, ((hi.stableTo hw).elim h).1, .inl rfl⟩
  | ackApply hm he h =>
    obtain ⟨_, hle, h⟩ := bind_eq_ok.mp h
    cases h
    exact ⟨A, hi.congr rfl rfl rfl (assertTrue_eq_ok.mp hle).1, .inl rfl⟩

end LogMove

end Cockroach.Raft
