import Cockroach.Raft.LogMoves
import Cockroach.Raft.RawNode

/-!
# Start-up and Readies

What `newRaft` makes of storage (`newRaft_started`), and what a Ready hands out
and leaves behind (`ready_eq_ok`).
-/

namespace Cockroach.Raft

open Lib MemoryStorage RaftNode

/-- A node that has just been started over `storage`. -/
structure Started (c : Settings) (storage : MemoryStorage) (r : RaftNode) : Prop where
  id : r.id = c.id
  id_ne : c.id ≠ None
  term : r.term = storage.hardState.term
  vote : r.vote = storage.hardState.vote
  lead : r.lead = storage.hardState.lead
  leadEpoch : r.leadEpoch = storage.hardState.leadEpoch
  state : r.state = .follower
  msgs : r.msgs = []
  msgsAfterAppend : r.msgsAfterAppend = []
  config : ∃ changer trk,
    Confchange.restore changer storage.snapshot.metadata.confState = .ok (r.config, trk) ∧
    storage.snapshot.metadata.confState.equivalent r.config.confState = true
  log : ∃ size l, RaftLog.newLogWithSize storage size = .ok l ∧ r.raftLog.storage = l.storage ∧
    r.raftLog.unstable = l.unstable
  committed_ge : storage.base.index ≤ r.raftLog.committed
  committed_le : r.raftLog.committed ≤ storage.lastIndex
  applying : r.raftLog.applying = r.raftLog.applied
  applied_ge : storage.base.index ≤ r.raftLog.applied
  applied_le : r.raftLog.applied ≤ r.raftLog.committed

variable {storage : MemoryStorage}

theorem newLogWithSize_fields {size : Nat} {l : RaftLog}
    (h : RaftLog.newLogWithSize storage size = .ok l) :
    l.storage = storage ∧ l.lastIndex = storage.lastIndex ∧ l.committed = storage.base.index ∧
      l.applying = storage.base.index ∧ l.applied = storage.base.index := by
  unfold RaftLog.newLogWithSize at h
  dsimp only at h
  split at h
  · cases h
  · cases h
    refine ⟨rfl, ?_, rfl, rfl, rfl⟩
    simp [RaftLog.lastIndex, Unstable.new, LogSlice.lastIndex]

theorem validate_id (c : Settings) : Returns c.validate fun c' => c'.id = c.id ∧ c.id ≠ None := by
  unfold Settings.validate
  refine sat_assert_bind (fun _ => trivial) fun hid => ?_
  refine Returns.seq fun _ _ => ?_
  refine Returns.seq fun _ _ => ?_
  exact Returns.seq fun _ _ => ⟨rfl, hid.1⟩

/-- The part of start-up that reads the hard state. -/
theorem loadState_spec {r r' : RaftNode} {hs : HardState} (h : r.loadState hs = .ok r') :
    isEmptyHardState hs = true ∧ r' = r ∨
    r.raftLog.committed ≤ hs.commit ∧ hs.commit ≤ r.raftLog.lastIndex ∧
      r' = { r with raftLog := { r.raftLog with committed := hs.commit }, term := hs.term,
                    vote := hs.vote, lead := hs.lead, leadEpoch := hs.leadEpoch } := by
  unfold loadState at h
  by_cases he : isEmptyHardState hs = true
  · rw [if_pos he] at h
    cases h
    exact .inl ⟨he, rfl⟩
  · rw [if_neg he] at h
    obtain ⟨_, hle, h⟩ := bind_eq_ok.mp h
    obtain ⟨hlo, hhi⟩ := assertTrue_eq_ok.mp hle
    cases h
    exact .inr ⟨hlo, hhi, rfl⟩

/-- The part of start-up that is told what the application has applied. -/
theorem loadApplied_spec {r r' : RaftNode} {applied : Nat} (h : r.loadApplied applied = .ok r')
    (hle : r.raftLog.applied ≤ r.raftLog.committed) (heq : r.raftLog.applying = r.raftLog.applied) :
    ∃ l, r' = { r with raftLog := l } ∧ l.storage = r.raftLog.storage ∧
      l.unstable = r.raftLog.unstable ∧ l.committed = r.raftLog.committed ∧
      l.applying = l.applied ∧ r.raftLog.applied ≤ l.applied ∧ l.applied ≤ l.committed := by
  unfold loadApplied at h
  split_ifs at h
  · obtain ⟨l, hl, h⟩ := bind_eq_ok.mp h
    obtain ⟨_, hb, hl⟩ := bind_eq_ok.mp hl
    obtain ⟨hhi, hlo⟩ := assertTrue_eq_ok.mp hb
    cases h
    cases hl
    refine ⟨_, rfl, rfl, rfl, rfl, ?_, hlo, hhi⟩
    exact max_eq_right (heq ▸ hlo)
  · cases h
    exact ⟨r.raftLog, rfl, rfl, rfl, rfl, heq, le_rfl, hle⟩

/-- `newRaft` returns a started node. -/
theorem newRaft_started [Codec] (env : Env) (c : Settings) (storage : MemoryStorage) :
    Returns (newRaft env c storage) (Started c storage) := by
  rw [returns_iff]
  intro r h
  unfold newRaft at h
  obtain ⟨c', hc', h⟩ := bind_eq_ok.mp h
  obtain ⟨l, hl, h⟩ := bind_eq_ok.mp h
  obtain ⟨lastID, -, h⟩ := bind_eq_ok.mp h
  obtain ⟨r₁, hr₁, h⟩ := bind_eq_ok.mp h
  obtain ⟨r₂, hr₂, h⟩ := bind_eq_ok.mp h
  obtain ⟨r₃, hr₃, h⟩ := bind_eq_ok.mp h
  obtain ⟨changer, cfg, trk, isLearner, rfl, hcfg, hequiv⟩ :=
    (restoreConfig_follower rfl _ _).elim hr₁
  obtain ⟨hst, hlast, hcom, happlying, happlied⟩ := newLogWithSize_fields hl
  -- Everything but the applied index is known once the hard state is loaded.
  have hload : r₂.id = c.id ∧ r₂.term = storage.hardState.term ∧
      r₂.vote = storage.hardState.vote ∧ r₂.lead = storage.hardState.lead ∧
      r₂.leadEpoch = storage.hardState.leadEpoch ∧ r₂.config = cfg ∧ r₂.msgs = [] ∧
      r₂.msgsAfterAppend = [] ∧ r₂.raftLog.storage = l.storage ∧
      r₂.raftLog.unstable = l.unstable ∧ r₂.raftLog.applying = l.applying ∧
      r₂.raftLog.applied = l.applied ∧ storage.base.index ≤ r₂.raftLog.committed ∧
      r₂.raftLog.committed ≤ storage.lastIndex := by
    have hid := ((validate_id c).elim hc').1
    rcases loadState_spec hr₂ with ⟨he, rfl⟩ | ⟨hlo, hhi, rfl⟩
    · have hempty : storage.hardState = {} := by simpa [isEmptyHardState] using he
      simp [hempty, hid, hcom, lastIndex]
    · simp only [hid, true_and]
      exact ⟨hcom ▸ hlo, hlast ▸ hhi⟩
  obtain ⟨hid, hterm, hvote, hlead, hepoch, hconf, hmsgs, hafter, hstore, hun, hing, hed, hge,
    hle⟩ := hload
  obtain ⟨l₃, rfl, hs₃, hu₃, hc₃, hi₃, ha₃, hb₃⟩ :=
    loadApplied_spec hr₃ (by rw [hed, happlied]; exact hge) (by rw [hing, hed, happlying, happlied])
  unfold becomeFollower reset at h
  rw [if_pos rfl] at h
  cases h
  exact {
    id := hid
    id_ne := ((validate_id c).elim hc').2
    term := hterm
    vote := hvote
    lead := hlead
    leadEpoch := hepoch
    state := rfl
    msgs := hmsgs
    msgsAfterAppend := hafter
    config := ⟨changer, trk, hconf.symm ▸ hcfg, hconf.symm ▸ hequiv⟩
    log := ⟨_, l, hl, hs₃.trans hstore, hu₃.trans hun⟩
    committed_ge := hc₃.symm ▸ hge
    committed_le := hc₃.symm ▸ hle
    applying := hi₃
    applied_ge := by rw [hed, happlied] at ha₃; exact ha₃
    applied_le := hb₃ }

/-- A started node has no pending snapshot, and its storage is the one it was
given. -/
theorem Started.frame {c : Settings} {r : RaftNode} (h : Started c storage r) :
    r.raftLog.storage = storage ∧ r.raftLog.unstable.snapshot = none := by
  obtain ⟨size, l, hl, hst, hun⟩ := h.log
  rw [hst, hun]
  refine ⟨(newLogWithSize_fields hl).1, ?_⟩
  unfold RaftLog.newLogWithSize at hl
  dsimp only at hl
  split at hl
  · cases hl
  · cases hl
    rfl

/-- The log of a started node is what storage has. -/
theorem Started.logInv {c : Settings} {r : RaftNode}
    (h : Started c storage r) (hms : LogSlice.Chained storage.base storage.ents) :
    LogInv ⟨(LogSlice.lastID storage.base storage.ents).term, storage.base, storage.ents⟩
      r.raftLog [] [] := by
  obtain ⟨size, l, hl, hst, hun⟩ := h.log
  have hinit := ((LogInv.init hms).elim hl).2
  have hge := h.committed_ge
  have hle := h.committed_le
  have happ := h.applied_le
  generalize r.raftLog = rl at hst hun hge hle happ ⊢
  obtain ⟨st, u, c, i, a, m, sz, p⟩ := rl
  cases hst
  cases hun
  exact { hinit with committed_ge := hge, committed_le := hle, applied_le := happ }

/-! ## The append thread -/

theorem append_frame {ms ms' : MemoryStorage} {es : List Entry} (h : ms.append es = .ok ms') :
    ms'.hardState = ms.hardState ∧ ms'.snapshot = ms.snapshot ∧ ms'.base = ms.base := by
  unfold append at h
  cases es with
  | nil =>
    cases h
    exact ⟨rfl, rfl, rfl⟩
  | cons e es =>
    dsimp only at h
    split_ifs at h
    · cases h
      exact ⟨rfl, rfl, rfl⟩
    · obtain ⟨_, -, h⟩ := bind_eq_ok.mp h
      cases h
      exact ⟨rfl, rfl, rfl⟩

/-- What the append thread leaves in storage beside the log. -/
theorem StorageAppend.persist_spec {w : StorageAppend} {ms ms' : MemoryStorage}
    (h : w.persist ms = .ok ms') :
    ms'.hardState = (if isEmptyHardState w.hardState then ms.hardState else w.hardState) ∧
      ms'.snapshot = w.snapshot.getD ms.snapshot := by
  have hset : ∀ ms₁ : MemoryStorage, ms₁.write w.toLogWrite = .ok ms' →
      ms'.hardState = ms₁.hardState ∧ ms'.snapshot = w.snapshot.getD ms₁.snapshot := by
    intro ms₁ hw
    unfold write at hw
    cases hs : w.snapshot with
    | none =>
      rw [hs] at hw
      exact ⟨(append_frame hw).1, (append_frame hw).2.1⟩
    | some s =>
      rw [hs] at hw
      unfold applySnapshot at hw
      by_cases hold : ms₁.snapshot.metadata.index ≥ s.metadata.index
      · simp only [hold, if_true] at hw
        cases hw
      · simp only [hold, if_false] at hw
        exact ⟨(append_frame hw).1, (append_frame hw).2.1⟩
  unfold StorageAppend.persist at h
  dsimp only at h
  split_ifs at h with he
  · rw [if_pos he]
    exact hset ms h
  · rw [if_neg he]
    exact hset (ms.setHardState w.hardState) h

/-! ## Readies -/

namespace RawNode

/-- Handing out entries moves the applying cursor and nothing else. -/
theorem acceptApplying_spec [Codec] {l l' : RaftLog} {ents : List Entry}
    (h : acceptApplying l ents = .ok l') :
    l'.storage = l.storage ∧ l'.unstable = l.unstable ∧ l'.committed = l.committed ∧
      l'.applied = l.applied ∧
      l'.applying = (ents.getLast?.map (·.index)).getD l.applying := by
  unfold acceptApplying at h
  cases he : ents.getLast? with
  | none =>
    rw [he] at h
    cases h
    exact ⟨rfl, rfl, rfl, rfl, rfl⟩
  | some e =>
    rw [he] at h
    obtain ⟨_, -, h⟩ := bind_eq_ok.mp h
    cases h
    exact ⟨rfl, rfl, rfl, rfl, rfl⟩

/-- A Ready, and the node that has accepted it. -/
theorem ready_eq_ok [Codec] {rn rn' : RawNode} {rd : Ready} (h : rn.ready = .ok (rd, rn')) :
    ∃ l, rn.raft.raftLog.nextCommittedEnts false = .ok rd.committedEntries ∧
      acceptApplying rn.raft.raftLog.acceptUnstable rd.committedEntries = .ok l ∧
      rn'.raft = { rn.raft with msgs := [], msgsAfterAppend := [], raftLog := l } ∧
      rd.snapshot = rn.raft.raftLog.nextUnstableSnapshot ∧ rd.messages = rn.raft.msgs ∧
      rd.hardState = rn.nextHardState ∧
      rn'.prevHardSt = (if isEmptyHardState rn.nextHardState then rn.prevHardSt
        else rn.nextHardState) ∧
      rd.append = (if rn.needStorageAppendMsg then some rn.newStorageAppendMsg else none) ∧
      rd.apply = (if rd.committedEntries.isEmpty then none
        else some ⟨rd.committedEntries,
          newStorageApplyRespMsg rn.raft.id rd.committedEntries⟩) := by
  unfold ready at h
  obtain ⟨rd', hrd, h⟩ := bind_eq_ok.mp h
  obtain ⟨rn'', hrn, h⟩ := bind_eq_ok.mp h
  cases h
  obtain ⟨ents, hents, hrd⟩ := bind_eq_ok.mp hrd
  cases hrd
  obtain ⟨l, hl, hrn⟩ := bind_eq_ok.mp hrn
  cases hrn
  exact ⟨l, hents, hl, rfl, rfl, rfl, rfl, rfl, rfl, rfl⟩

end RawNode

end Cockroach.Raft
