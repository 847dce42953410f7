import Cockroach.Raft.Application

/-!
# The size of the entries being applied

`nextCommittedEnts` hands out entries up to `maxApplyingEntsSize - applyingEntsSize` bytes and
panics if nothing is left; what keeps it from that is the flag `applyingEntsPaused`, which
`appliedTo` and `acceptApplying` recompute. `Applying` are the runs of a node as far as this
matters: any messages (storage responses true or not), ticks, configuration changes, changes
of the storage, and Readies with or without asynchronous storage writes.

Unless it is paused, a log has room in every state of such a run
(`apply_size_positive`), provided it starts with some. A configuration with both size limits
zero is accepted and has none: its first Ready panics (`apply_size_zero`).
-/

namespace Cockroach.Raft

open Lib RaftNode

namespace RaftLog

variable {l l' : RaftLog} {i size : Nat}

/-- Unless the log is paused, there is room for more entries to apply. -/
def HasRoom (l : RaftLog) : Prop :=
  l.applyingEntsPaused = false → l.applyingEntsSize < l.maxApplyingEntsSize

theorem hasRoom_appliedTo (h : l.appliedTo i size = .ok l') : l'.HasRoom := by
  obtain ⟨_, -, h⟩ := bind_eq_ok.mp h
  cases h
  intro hrun
  exact not_le.mp (of_decide_eq_false hrun)

theorem hasRoom_acceptApplying {allowUnstable : Bool}
    (h : l.acceptApplying i size allowUnstable = .ok l') : l'.HasRoom := by
  obtain ⟨_, -, h⟩ := bind_eq_ok.mp h
  cases h
  intro hrun
  exact not_le.mp (of_decide_eq_false (Bool.or_eq_false_iff.mp hrun).1)

variable [Codec]

theorem HasRoom.move {inp : Message} (h : l.HasRoom) (hm : LogMove inp l l') : l'.HasRoom := by
  cases hm with
  | append hv hl | restore hm hv hgt hl =>
    obtain ⟨u, -, rfl⟩ := Option.map_eq_some_iff.mp hl
    exact h
  | accept hv hc hl =>
    obtain ⟨u, rfl, -⟩ := (maybeAppend_frame _ _).elim hl l' rfl
    exact h
  | commit hl =>
    rcases commitTo_eq_ok hl with rfl | ⟨-, -, rfl⟩
    · exact h
    · exact h
  | ackSnapshot hm hs hl | ackApply hm he hl => exact hasRoom_appliedTo hl
  | ackEntries hm hi hl =>
    obtain ⟨u, -, hl⟩ := bind_eq_ok.mp hl
    cases hl
    exact h

theorem HasRoom.moves {inp : Message} (h : l.HasRoom) (hm : LogMoves inp l l') : l'.HasRoom := by
  induction hm with
  | refl => exact h
  | tail _ hmove ih => exact ih.move hmove

/-- A log with room does not panic for the lack of it. -/
theorem HasRoom.nextCommittedEnts (h : l.HasRoom) (allowUnstable : Bool) :
    l.nextCommittedEnts allowUnstable ≠ .error .applyingSizeNotPositive := by
  have hsat : Sat (l.nextCommittedEnts allowUnstable) (· ≠ .applyingSizeNotPositive)
      fun _ => True := by
    unfold RaftLog.nextCommittedEnts
    refine .ite (fun _ => trivial) fun hrun => .ite (fun _ => trivial) fun _ =>
      .ite (fun _ => trivial) fun _ => ?_
    refine sat_assert_bind (fun hzero => ?_) fun _ => ?_
    · have hroom := h (Bool.not_eq_true _ ▸ hrun)
      omega
    · have hread := l.slice_sat (l.applying + 1) (l.maxAppliableIndex allowUnstable + 1)
        (l.maxApplyingEntsSize - l.applyingEntsSize)
      refine (hread.mono ?_ fun _ _ => trivial).bind fun ents _ => ?_
      · rintro p (rfl | rfl | rfl | rfl) <;> exact Panic.noConfusion
      · cases ents with
        | error err => exact Panic.noConfusion
        | ok ents => trivial
  intro hpanic
  exact hsat.stop hpanic rfl

/-- What `Ready` does to the log: the next entries are handed out and accepted as being
applied. `allowUnstable` is `applyUnstableEntries`, set without asynchronous storage
writes. -/
def handOut (l : RaftLog) (allowUnstable : Bool) : Except Panic (List Entry × RaftLog) := do
  let ents ← l.nextCommittedEnts allowUnstable
  match ents.getLast? with
  | none => return (ents, l.acceptUnstable)
  | some e =>
    return (ents, ← l.acceptUnstable.acceptApplying e.index (entsSize ents) allowUnstable)

/-- `RawNode.ready` is the case with asynchronous storage writes. -/
theorem handOut_eq_ok {ents : List Entry} (hents : l.nextCommittedEnts false = .ok ents)
    (hl : RawNode.acceptApplying l.acceptUnstable ents = .ok l') :
    l.handOut false = .ok (ents, l') := by
  unfold RawNode.acceptApplying at hl
  refine bind_eq_ok.mpr ⟨ents, hents, ?_⟩
  cases hlast : ents.getLast? with
  | none =>
    rw [hlast] at hl
    cases hl
    rfl
  | some e =>
    rw [hlast] at hl
    exact bind_eq_ok.mpr ⟨l', hl, rfl⟩

theorem HasRoom.handOut {allowUnstable : Bool} {ents : List Entry} (h : l.HasRoom)
    (hl : l.handOut allowUnstable = .ok (ents, l')) : l'.HasRoom := by
  obtain ⟨ents', -, hl⟩ := bind_eq_ok.mp hl
  cases hlast : ents'.getLast? with
  | none =>
    rw [hlast] at hl
    cases hl
    exact h
  | some e =>
    rw [hlast] at hl
    obtain ⟨l₁, haccept, hl⟩ := bind_eq_ok.mp hl
    cases hl
    exact hasRoom_acceptApplying haccept

end RaftLog

namespace Applying

variable [Codec]

/-- The steps of a node. -/
inductive Step : RaftNode → RaftNode → Prop
  | call {r r' : RaftNode} {env : Env} {m : Message} {err : Option StepErr}
      (h : r.step env m = .ok (err, r')) : Step r r'
  | tick {r r' : RaftNode} {env : Env} (h : r.tick env = .ok r') : Step r r'
  | confChange {r r' : RaftNode} {env : Env} {cc : ConfChangeV2}
      (h : r.applyConfChange env cc = .ok r') : Step r r'
  | ready {r : RaftNode} {allowUnstable : Bool} {ents : List Entry} {l : RaftLog}
      (h : r.raftLog.handOut allowUnstable = .ok (ents, l)) :
      Step r { r with msgs := [], msgsAfterAppend := [], raftLog := l }
  | storage {r : RaftNode} (ms : MemoryStorage) :
      Step r { r with raftLog := { r.raftLog with storage := ms } }

/-- The states of the runs of a node that is started with the settings `c`. -/
inductive Reachable (c : Settings) : RaftNode → Prop
  | init {env : Env} {storage : MemoryStorage} {r : RaftNode}
      (h : RaftNode.newRaft env c storage = .ok r) : Reachable c r
  | step {r r' : RaftNode} (h : Reachable c r) (hs : Step r r') : Reachable c r'

/-- A step of a node and its application is a step here. -/
theorem Step.of_application {s s' : Application} (h : s.Step s') :
    Step s.node.raft s'.node.raft := by
  cases h with
  | call hm h | appendResp hw hm h | applyResp ha h => exact .call h
  | tick h => exact .tick h
  | confChange h => exact .confChange h
  | ready h =>
    obtain ⟨l, hents, hl, hraft, -⟩ := RawNode.ready_eq_ok h
    have hstep : Step s.node.raft _ := .ready (RaftLog.handOut_eq_ok hents hl)
    exact hraft ▸ hstep
  | persist hq h => exact .storage _

theorem Reachable.of_application {c : Settings} {storage : MemoryStorage} {start : Nat}
    {s : Application} (h : Application.Reachable c storage start s) :
    Reachable c s.node.raft := by
  induction h with
  | init h =>
    obtain ⟨r, hr, h⟩ := bind_eq_ok.mp h
    cases h
    exact .init hr
  | step _ hs ih => exact .step ih (.of_application hs)

omit [Codec] in
/-- The limit that `Config.validate` sets for the entries being applied. -/
theorem validate_maxCommittedSize {c c' : Settings} (h : c.validate = .ok c')
    (hpos : 0 < c.maxCommittedSizePerReady ∨ 0 < c.maxSizePerMsg) :
    0 < c'.maxCommittedSizePerReady := by
  obtain ⟨_, -, h⟩ := bind_eq_ok.mp h
  obtain ⟨_, -, h⟩ := bind_eq_ok.mp h
  obtain ⟨_, -, h⟩ := bind_eq_ok.mp h
  obtain ⟨_, -, h⟩ := bind_eq_ok.mp h
  cases h
  show 0 < if c.maxCommittedSizePerReady = 0 then c.maxSizePerMsg else c.maxCommittedSizePerReady
  split <;> omega

theorem newRaft_hasRoom {env : Env} {c : Settings} {storage : MemoryStorage} {r : RaftNode}
    (hpos : 0 < c.maxCommittedSizePerReady ∨ 0 < c.maxSizePerMsg)
    (h : newRaft env c storage = .ok r) : r.raftLog.HasRoom := by
  unfold newRaft at h
  obtain ⟨c', hc', h⟩ := bind_eq_ok.mp h
  obtain ⟨l, hl, h⟩ := bind_eq_ok.mp h
  obtain ⟨lastID, -, h⟩ := bind_eq_ok.mp h
  obtain ⟨r₁, hr₁, h⟩ := bind_eq_ok.mp h
  obtain ⟨r₂, hr₂, h⟩ := bind_eq_ok.mp h
  obtain ⟨r₃, hr₃, hfollow⟩ := bind_eq_ok.mp h
  have hroom : l.HasRoom := by
    unfold RaftLog.newLogWithSize at hl
    dsimp only at hl
    split at hl
    · cases hl
    · cases hl
      exact fun _ => validate_maxCommittedSize hc' hpos
  obtain ⟨changer, cfg, trk, isLearner, rfl, -⟩ :=
    (restoreConfig_follower rfl _ _).elim hr₁
  have hroom₂ : r₂.raftLog.HasRoom := by
    rcases loadState_spec hr₂ with ⟨-, rfl⟩ | ⟨-, -, rfl⟩
    · exact hroom
    · exact hroom
  have hroom₃ : r₃.raftLog.HasRoom := by
    unfold loadApplied at hr₃
    split_ifs at hr₃
    · obtain ⟨l₃, hl₃, hr₃⟩ := bind_eq_ok.mp hr₃
      cases hr₃
      exact RaftLog.hasRoom_appliedTo hl₃
    · cases hr₃
      exact hroom₂
  unfold becomeFollower reset at hfollow
  rw [if_pos rfl] at hfollow
  cases hfollow
  exact hroom₃

/-- What one step preserves. -/
theorem Step.hasRoom {r r' : RaftNode} (h : r.raftLog.HasRoom) (hs : Step r r') :
    r'.raftLog.HasRoom := by
  cases hs with
  | call hstep => exact h.moves ((step_walks _ _ _).elim hstep).1.logMoves
  | @tick _ env htick =>
    exact h.moves ((tick_walks env { type := .hup } r).elim htick).1.logMoves
  | @confChange _ env cc hcc =>
    rcases applyConfChange_walks env { type := .hup } r cc with herr | hok
    · rw [herr] at hcc
      cases hcc
    · obtain ⟨cfg, trk, isLearner, hwalk⟩ := hok
      exact RaftLog.HasRoom.moves h (hwalk.elim hcc).1.logMoves
  | ready hl => exact h.handOut hl
  | storage ms => exact h

/-- What a whole run preserves. -/
theorem Reachable.hasRoom {c : Settings} {r : RaftNode}
    (hpos : 0 < c.maxCommittedSizePerReady ∨ 0 < c.maxSizePerMsg) (h : Reachable c r) :
    r.raftLog.HasRoom := by
  induction h with
  | init hnew => exact newRaft_hasRoom hpos hnew
  | step _ hs ih => exact hs.hasRoom ih

end Applying

open Applying in
/-- In every run of a node with a positive size limit, whenever the limit for the next
entries is computed it is positive, without a wrap-around. -/
theorem apply_size_positive [Codec] {c : Settings} {r : RaftNode}
    (hpos : 0 < c.maxCommittedSizePerReady ∨ 0 < c.maxSizePerMsg) (h : Reachable c r) :
    (r.raftLog.applyingEntsPaused = false →
      r.raftLog.applyingEntsSize < r.raftLog.maxApplyingEntsSize) ∧
    ∀ allowUnstable, r.raftLog.nextCommittedEnts allowUnstable ≠
      .error .applyingSizeNotPositive :=
  ⟨h.hasRoom hpos, (h.hasRoom hpos).nextCommittedEnts⟩

/-- A node over `soloStorage` with a limit of a hundred bytes, after an apply response and while
another entry is being applied. -/
theorem apply_size_positive_solo : ∃ r, @Applying.Reachable wireCodec soloSettings r ∧
    r.raftLog.applyingEntsPaused = false ∧ 0 < r.raftLog.applyingEntsSize ∧
    r.raftLog.applyingEntsSize < r.raftLog.maxApplyingEntsSize := by
  let _ := wireCodec
  have hrun : ((Application.run soloSettings soloStorage soloWork.dropLast).map fun s =>
      (s.log.applyingEntsPaused, decide (0 < s.log.applyingEntsSize))) = .ok (false, true) := by
    decide +kernel
  obtain ⟨s, hs, h⟩ := map_eq_ok.mp hrun
  obtain ⟨start, hreach⟩ := (Application.reachable_run _).elim hs
  obtain ⟨hpaused, hsize⟩ := Prod.mk.inj h
  have hreach := Applying.Reachable.of_application hreach
  exact ⟨_, hreach, hpaused, of_decide_eq_true hsize,
    (apply_size_positive (.inr (by decide)) hreach).1 hpaused⟩

/-- "0 for at most one entry per message", and the default for the entries being applied. -/
def zeroSettings : Settings := { soloSettings with maxSizePerMsg := 0 }

/-- Both size limits may be zero. Then the node panics in its first Ready that has an entry
to apply. -/
theorem apply_size_zero : ∃ c' r, zeroSettings.validate = .ok c' ∧
    @Applying.Reachable wireCodec zeroSettings r ∧
    r.raftLog.applyingEntsPaused = false ∧
    @RaftLog.nextCommittedEnts wireCodec r.raftLog false =
      .error .applyingSizeNotPositive := by
  let _ := wireCodec
  have hrun : (RaftNode.newRaft {} zeroSettings soloStorage >>= fun r =>
      pure (r.raftLog.applyingEntsPaused, r.raftLog.nextCommittedEnts false)) =
      .ok (false, .error .applyingSizeNotPositive) := rfl
  obtain ⟨r, hnew, h⟩ := bind_eq_ok.mp hrun
  obtain ⟨hpaused, hpanic⟩ := Prod.mk.inj (Except.ok.inj h)
  exact ⟨_, r, rfl, .init hnew, hpaused, hpanic⟩

end Cockroach.Raft
