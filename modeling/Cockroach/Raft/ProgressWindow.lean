import Cockroach.Raft.Tenure
import Cockroach.Raft.Window

/-!
# The progress of the peers through a term

A leader keeps `Match < Next` for every peer, and the indices in flight between
the two (`progress_window`). What ties a progress to the log is `Fits`: `Next`
is in the log or just after it, unless the peer has fallen behind the first
index. The leader does not check acknowledgements against its log, so they are
required to be about entries it has; `progress_window_overrun` shows what an
acknowledgement beyond the log leads to.

While a snapshot is on its way, the fields of `Progress` document that `Next` and
`SentCommit` stay with it. That holds as long as nothing late arrives
(`snapshot_frozen`); a duplicated rejection moves `Next` back
(`snapshot_thawed`).
-/

namespace Cockroach.Raft

open Lib RaftLog Progress

namespace RaftLog

variable {l : RaftLog} {i : Nat}

/-- Only positions outside the log have no term. -/
theorem Settled.term_error (h : l.Settled) {err : StorageErr} (herr : l.term i = .error err) :
    i + 1 < l.firstIndex ∨ l.lastIndex < i := by
  unfold term at herr
  split at herr
  · cases herr
  rename_i hterm
  split at herr
  · exact .inl ‹_›
  split at herr
  · exact .inr ‹_›
  rename_i hlo hhi
  -- In between, storage has the entry.
  have hprev : i < l.unstable.prev.index := by
    by_contra hge
    have hrange : ¬ (i < l.unstable.prev.index ∨ i > l.unstable.lastIndex) :=
      not_or.mpr ⟨hge, hhi⟩
    unfold Unstable.maybeTerm at hterm
    rw [if_neg hrange] at hterm
    cases hterm
  have hstored := h.stored
  rw [h.firstIndex] at hlo
  unfold MemoryStorage.term at herr
  split at herr
  · omega
  split at herr
  · cases herr
  split at herr
  · cases herr
  rename_i hnone
  rw [List.getElem?_eq_none_iff] at hnone
  unfold MemoryStorage.lastIndex at hstored
  omega

variable [Codec]

/-- A read of the log from `i` on: it is not compacted, and not longer than the log. -/
theorem Settled.entries_spec (h : l.Settled) (maxSize : Nat) (hi : l.storage.base.index < i) :
    ∃ es, l.entries i maxSize = .ok (.ok es) ∧ es.length ≤ l.lastIndex + 1 - i := by
  unfold entries
  split
  · exact ⟨[], rfl, Nat.zero_le _⟩
  rename_i hle
  have hpresents := l.storage.presents_join h.snapshot h.base_le h.stored
  have hlast : (l.storage.join l.unstable).lastIndex = l.lastIndex := hpresents.lastIndex.symm
  have hlen : ((l.storage.join l.unstable).readEntries i (l.lastIndex + 1)).length =
      l.lastIndex + 1 - i :=
    LogSlice.length_readEntries hi (by rw [hlast])
  have hslice := hpresents.slice_cases maxSize hi (show i ≤ l.lastIndex + 1 by omega)
    (by rw [hlast])
  rw [slice_eq_reader]
  rcases hslice with hslice | ⟨xs, ys, hsplit, -, -, -, hslice⟩
  · refine ⟨_, hslice, ?_⟩
    obtain ⟨n, hn, -⟩ := limitSize_eq_take maxSize
      ((l.storage.join l.unstable).readEntries i (l.lastIndex + 1))
    rw [hn, List.length_take, hlen]
    exact min_le_right _ _
  · refine ⟨xs, hslice, ?_⟩
    rw [hsplit, List.length_append] at hlen
    omega

theorem Settled.entries_compacted (h : l.Settled) (maxSize : Nat)
    (hi : i ≤ l.storage.base.index) : l.entries i maxSize = .ok (.error .compacted) := by
  have hbase := h.base_le
  have hprev := h.prev_le
  have hlast : ¬ i > l.lastIndex := by omega
  have hfirst : i < l.firstIndex := by
    rw [h.firstIndex]
    omega
  have hcheck : l.mustCheckOutOfBounds i (l.lastIndex + 1) = .ok (some .compacted) := by
    unfold mustCheckOutOfBounds
    rw [assertTrue_of (by omega)]
    show (if i < l.firstIndex then _ else _) = _
    rw [if_pos hfirst]
    rfl
  unfold entries slice
  rw [if_neg hlast, hcheck]
  rfl

theorem Settled.entries_ok (h : l.Settled) {maxSize : Nat} {es : List Entry}
    (hread : l.entries i maxSize = .ok (.ok es)) : es.length ≤ l.lastIndex + 1 - i := by
  rcases Nat.lt_or_ge l.storage.base.index i with hi | hi
  · obtain ⟨es', hes', hlen⟩ := h.entries_spec maxSize hi
    cases hread.symm.trans hes'
    exact hlen
  · cases hread.symm.trans (h.entries_compacted maxSize hi)

theorem Settled.entries_error (h : l.Settled) {maxSize : Nat} {err : StorageErr}
    (hread : l.entries i maxSize = .ok (.error err)) : i < l.firstIndex := by
  rw [h.firstIndex]
  by_contra hi
  obtain ⟨es, hes, -⟩ := h.entries_spec maxSize (i := i) (by omega)
  cases hread.symm.trans hes

end RaftLog

namespace Progress

/-- Where a progress stands in the log of the leader. -/
structure Fits (l : RaftLog) (pr : Progress) : Prop where
  next : pr.next ≤ l.lastIndex + 1 ∨ pr.state ≠ .replicate ∧ pr.matchIdx + 1 < l.firstIndex
  snapshot : pr.state = .snapshot → pr.matchIdx + 1 < l.firstIndex

variable {l l' : RaftLog} {pr pr' : Progress}

theorem Fits.match_le (h : pr.Fits l) (hw : pr.Window) (hs : l.Settled) :
    pr.matchIdx ≤ l.lastIndex := by
  have hlt := hw.match_lt
  have hfirst := hs.firstIndex
  have hbase := hs.base_le
  have hprev := hs.prev_le
  rcases h.next with h | h <;> omega

/-- A longer log, or one that is compacted further. -/
theorem Fits.mono (h : pr.Fits l) (hlast : l.lastIndex ≤ l'.lastIndex)
    (hfirst : l.firstIndex ≤ l'.firstIndex) : pr.Fits l' where
  next := h.next.imp (fun h => by omega) fun h => ⟨h.1, h.2.trans_le hfirst⟩
  snapshot hs := (h.snapshot hs).trans_le hfirst

theorem Fits.congr (h : pr.Fits l) (hm : pr'.matchIdx = pr.matchIdx) (hn : pr'.next = pr.next)
    (hs : pr'.state = pr.state) : pr'.Fits l where
  next := by rw [hm, hn, hs]; exact h.next
  snapshot := by rw [hm, hs]; exact h.snapshot

/-- `Next` directly after `Match`. -/
theorem Fits.of_next (h : pr.matchIdx ≤ l.lastIndex) (hn : pr.next = pr.matchIdx + 1)
    (hs : pr.state ≠ .snapshot) : pr.Fits l where
  next := .inl (by omega)
  snapshot h := absurd h hs

end Progress

namespace RaftNode

/-- A progress and the log. -/
structure Placed (l : RaftLog) (pr : Progress) : Prop where
  window : pr.Window
  fits : pr.Fits l

namespace Placed

variable {l l' : RaftLog} {pr pr' : Progress}

section

variable (h : Placed l pr)
include h

theorem mono (hlast : l.lastIndex ≤ l'.lastIndex)
    (hfirst : l.firstIndex ≤ l'.firstIndex) : Placed l' pr :=
  ⟨h.window, h.fits.mono hlast hfirst⟩

theorem congr (hm : pr'.matchIdx = pr.matchIdx) (hn : pr'.next = pr.next)
    (hs : pr'.state = pr.state) (hi : pr'.inflights = pr.inflights) : Placed l pr' :=
  ⟨h.window.congr hm hn hs hi, h.fits.congr hm hn hs⟩

theorem becomeProbe (hs : l.Settled) : Placed l pr.becomeProbe := by
  refine ⟨h.window.becomeProbe, ?_, nofun⟩
  by_cases hstate : pr.state = .snapshot
  · exact .inr ⟨nofun, h.fits.snapshot hstate⟩
  · left
    have hle := h.fits.match_le h.window hs
    show (if pr.state = .snapshot then _ else pr.matchIdx + 1) ≤ _
    rw [if_neg hstate]
    omega

theorem becomeReplicate (hs : l.Settled) : Placed l pr.becomeReplicate :=
  ⟨h.window.becomeReplicate, .of_next (h.fits.match_le h.window hs) rfl nofun⟩

theorem maybeUpdateSentCommit (commit : Nat) : Placed l (pr.maybeUpdateSentCommit commit) := by
  unfold Progress.maybeUpdateSentCommit
  split
  · exact h.congr rfl rfl rfl rfl
  · exact h

theorem answered (m : Message) : Placed l (RaftNode.answered pr m) := by
  unfold RaftNode.answered maybeUpdateMatchCommit
  split
  · exact h.congr rfl rfl rfl rfl
  · exact h.congr rfl rfl rfl rfl

/-- A rejection that moves `Next` back leaves the state of the peer alone, but
for one that was replicating. -/
theorem maybeDecrTo (hs : l.Settled) {rejected hint : Nat}
    (hdecr : pr.maybeDecrTo rejected hint = (true, pr')) :
    Placed l (if pr'.state = .replicate then pr'.becomeProbe else pr') := by
  unfold Progress.maybeDecrTo at hdecr
  split at hdecr
  · rename_i hstate
    split at hdecr
    · cases hdecr
    · cases hdecr
      rw [if_pos hstate]
      exact (h.becomeProbe hs).congr rfl rfl rfl rfl
  · rename_i hstate
    split at hdecr
    · cases hdecr
    · rename_i hrejected
      have hlt := h.window.match_lt
      cases hdecr
      rw [if_neg hstate]
      refine ⟨⟨h.window.inRing, ?_, fun h => absurd h hstate, fun h => absurd h hstate⟩, ?_,
        h.fits.snapshot⟩
      · dsimp only
        omega
      · refine h.fits.next.imp (fun hnext => ?_) fun h => h
        dsimp only
        omega

end

theorem maybeUpdate_fields (h : pr.Window) (n : Nat) :
    (pr.maybeUpdate n).2.state = pr.state ∧ (pr.maybeUpdate n).2.matchIdx = max pr.matchIdx n ∧
      (pr.maybeUpdate n).2.next = max pr.next (n + 1) ∧
      (pr.maybeUpdate n).2.inflights = pr.inflights := by
  have hlt := h.match_lt
  unfold maybeUpdate
  split
  · refine ⟨rfl, ?_, ?_, rfl⟩ <;> dsimp only <;> omega
  · refine ⟨rfl, ?_, rfl, rfl⟩
    dsimp only
    omega

/-- An acknowledgement of an entry of the log, and the change of state on it. -/
theorem afterMatch {r : RaftNode} (h : Placed r.raftLog pr) (hs : r.raftLog.Settled) {n : Nat}
    (hn : n ≤ r.raftLog.lastIndex) :
    Placed r.raftLog (r.afterMatch (pr.maybeUpdate n).2 n) := by
  have hfree := h.window.maybeUpdate_freeLE n
  have hle := h.fits.match_le h.window hs
  have hlt := h.window.match_lt
  obtain ⟨hstate, hmatch, hnext, hinflights⟩ := maybeUpdate_fields h.window n
  generalize (pr.maybeUpdate n).2 = q at *
  have hring : q.inflights.InRing := by
    rw [hinflights]
    exact h.window.inRing
  have hidle : ∀ q' : Progress, q'.inflights = q.inflights.reset → q'.matchIdx = q.matchIdx →
      q'.next = q.matchIdx + 1 → q'.state = .replicate → Placed r.raftLog q' := by
    intro q' hi hm hnx hst
    refine ⟨.of_idle ?_ (by omega) ?_, .of_next (by omega) (by rw [hnx, hm]) ?_⟩
    · rw [hi]
      exact hring.reset
    · rw [hi]
      exact Inflights.indexes_reset _
    · rw [hst]
      exact ProgressState.noConfusion
  unfold RaftNode.afterMatch
  cases hq : q.state with
  | probe => exact hidle _ rfl rfl rfl rfl
  | snapshot =>
    dsimp only
    split
    · exact hidle _ rfl rfl rfl rfl
    · rename_i hbehind
      have hne : q.state ≠ .replicate := by
        rw [hq]
        exact ProgressState.noConfusion
      refine ⟨⟨hring, by omega, fun h => absurd h hne, fun h => absurd h hne⟩, ?_, fun _ => ?_⟩
      · exact .inr ⟨hne, not_le.mp hbehind⟩
      · exact not_le.mp hbehind
  | replicate =>
    have hrep : pr.state = .replicate := hstate.symm.trans hq
    refine ⟨hfree.congr rfl rfl hq.symm rfl, .inl ?_, nofun⟩
    rcases h.fits.next with hfit | hfit
    · dsimp only
      omega
    · exact absurd hrep hfit.1

end Placed

section Terms

variable [Codec] {m inp : Message} {r r' : RaftNode} {pr pr' : Progress} {l : RaftLog}

theorem Sent.placed (h : Sent l pr pr') (hp : Placed l pr) (hs : l.Settled) : Placed l pr' := by
  cases h with
  | @app entries pr₁ hstate hread hsent =>
    have hlen : entries.length ≤ l.lastIndex + 1 - pr.next := by
      rcases hread with rfl | ⟨maxSize, hread⟩
      · exact Nat.zero_le _
      · exact hs.entries_ok hread
    refine Placed.maybeUpdateSentCommit ⟨hp.window.sentEntries hsent, ?_⟩ _
    unfold sentEntries at hsent
    split at hsent
    · rename_i hrep
      obtain ⟨_, -, hsent⟩ := bind_eq_ok.mp hsent
      cases hsent
      refine ⟨.inl ?_, hp.fits.snapshot⟩
      rcases hp.fits.next with hnext | hnext
      · dsimp only
        omega
      · exact absurd hrep.1 hnext.1
    · cases hsent
      exact hp.fits.congr rfl rfl rfl
  | snap hstate herr =>
    -- The entry before `Next` is gone, so the peer is behind the log.
    have hbehind : pr.matchIdx + 1 < l.firstIndex := by
      have hlt := hp.window.match_lt
      have hnext := hp.fits.next
      rcases herr with ⟨err, herr⟩ | ⟨maxSize, err, herr⟩
      · have := hs.term_error herr
        omega
      · have := hs.entries_error herr
        omega
    have hsnap : l.firstIndex ≤ l.snapshot.metadata.index + 1 := by
      unfold snapshot
      rw [hs.firstIndex, hs.snapshot]
      exact Nat.succ_le_succ hs.snapshot_ge
    exact ⟨hp.window.becomeSnapshot (by omega), .inr ⟨nofun, hbehind⟩, fun _ => hbehind⟩
  | heartbeat => exact hp.maybeUpdateSentCommit _

/-- An acknowledgement is about entries that the leader has. -/
def Plausible (r : RaftNode) (m : Message) : Prop :=
  m.type = .appResp → m.reject = false → m.index ≤ r.raftLog.lastIndex

omit [Codec] in
theorem Heard.placed (h : Heard r m pr pr') (hp : Placed r.raftLog pr) (hs : r.raftLog.Settled)
    (hok : r.Plausible m) : Placed r.raftLog pr' := by
  have hanswered := hp.answered m
  cases h with
  | decreased hm h => exact hanswered.maybeDecrTo hs h
  | stale hm h =>
    unfold Progress.maybeDecrTo at h
    split at h
    · split at h
      · cases h
        exact hanswered
      · cases h
    · split at h
      · cases h
        exact hanswered
      · cases h
  | @matched updated pr₁ hm h hnew =>
    obtain rfl : ((answered pr m).maybeUpdate m.index).2 = pr₁ := congrArg Prod.snd h
    exact hanswered.afterMatch hs (hok hm.1 hm.2)
  | known hm h =>
    unfold maybeUpdate at h
    split at h
    · cases h
      exact hanswered
    · cases h
  | snapStatus hstate h =>
    subst h
    have hp' : Placed r.raftLog (if m.reject then { pr with pendingSnapshot := 0 } else pr) := by
      split
      · exact hp.congr rfl rfl rfl rfl
      · exact hp
    exact (hp'.becomeProbe hs).congr rfl rfl rfl rfl
  | unreachable => exact hp.becomeProbe hs

/-- Every progress fits. -/
def AllPlaced (r : RaftNode) : Prop :=
  ∀ (id : PeerID) (pr : Progress), r.trk[id]? = some pr → Placed r.raftLog pr

omit [Codec] in
theorem AllPlaced.setProgress (h : r.AllPlaced) {id : PeerID} (hp : Placed r.raftLog pr) :
    (r.setProgress id pr).AllPlaced := by
  intro k pr' hpr'
  have hget : (r.trk.insert id pr)[k]? = some pr' := hpr'
  rw [Std.ExtTreeMap.getElem?_insert] at hget
  split at hget
  · cases hget
    exact hp
  · exact h k pr' hget

omit [Codec] in
theorem AllPlaced.mono (h : r.AllPlaced) (htrk : r'.trk = r.trk)
    (hlast : r.raftLog.lastIndex ≤ r'.raftLog.lastIndex)
    (hfirst : r.raftLog.firstIndex ≤ r'.raftLog.firstIndex) : r'.AllPlaced :=
  fun id pr hpr => (h id pr (htrk ▸ hpr)).mono hlast hfirst

theorem AllPlaced.act (h : r.AllPlaced) (hs : Steady inp r) (hact : Act inp r r') :
    r'.AllPlaced := by
  cases hact with
  | rest hsame =>
    intro id pr hpr
    rw [hsame.raftLog]
    exact h id pr (hsame.trk ▸ hpr)
  | sent hpr hid hsent => exact h.setProgress (hsent.placed (h _ _ hpr) hs.settled)
  | track htrk =>
    intro id pr' hpr'
    rcases htrk id pr' hpr' with ⟨pr, hpr, _, _, _, rfl⟩ | ⟨b, rfl⟩
    · exact (h id pr hpr).congr rfl rfl rfl rfl
    · refine ⟨.of_idle (Inflights.inRing_new _ _) ?_ rfl, .inl ?_, nofun⟩
      · show 0 < max r.raftLog.lastIndex 1
        omega
      · show max r.raftLog.lastIndex 1 ≤ r.raftLog.lastIndex + 1
        omega
  | reserve hcheck =>
    rw [checkConfChanges_frame hcheck]
    exact h
  | @propose es es' r₁ last l pr hcheck hlast hl hpr =>
    have hfirst : r.raftLog.firstIndex = l.firstIndex := by
      rw [append_eq_some hl]
      rfl
    have hgrow : l.lastIndex = r.raftLog.lastIndex + es'.length := by
      rw [lastIndex_append hl, length_stamp]
    have hplaced := h r.id pr hpr
    have hle := hplaced.fits.match_le hplaced.window hs.settled
    have hown : Placed l { pr with next := last.index + es'.length + 1 } := by
      rw [lastEntryID_index hlast]
      refine ⟨⟨hplaced.window.inRing, ?_, hplaced.window.increasing, fun hrep i hi => ?_⟩,
        .inl ?_, fun hsnap => ?_⟩
      · dsimp only
        omega
      · have hin := hplaced.window.inside hrep i hi
        rcases hplaced.fits.next with hnext | hnext
        · dsimp only
          omega
        · exact absurd hrep hnext.1
      · dsimp only
        omega
      · exact (hplaced.fits.snapshot hsnap).trans_le hfirst.le
    have hlong : AllPlaced { r with raftLog := l } :=
      h.mono rfl (by show _ ≤ l.lastIndex; omega) hfirst.le
    exact hlong.setProgress hown
  | commit hc =>
    rcases commitTo_eq_ok hc with rfl | ⟨-, -, rfl⟩
    · exact h
    · exact h.mono rfl le_rfl le_rfl
  | applied ha =>
    obtain ⟨-, -, _, _, _, rfl⟩ := appliedTo_eq_ok ha
    exact h.mono rfl le_rfl le_rfl
  | snapped =>
    refine h.mono rfl ?_ ?_
    · show _ ≤ (r.raftLog.stableSnapTo _).lastIndex
      rw [hs.settled.stableSnapTo]
    · show _ ≤ (r.raftLog.stableSnapTo _).firstIndex
      rw [hs.settled.stableSnapTo]
  | stable hm hst =>
    obtain ⟨-, hlast, hsettled, -⟩ := Acked.stableTo hs.settled (hs.honest hm) hst
    refine h.mono rfl hlast.ge ?_
    show _ ≤ firstIndex _
    rw [hs.settled.firstIndex, hsettled.firstIndex]
    rcases stableTo_eq_ok hst with rfl | ⟨-, -, -, rfl⟩
    · exact le_rfl
    · exact le_rfl

omit [Codec] in
/-- A new leader has started every progress anew. -/
theorem progress_asLeader {env : Env} {r : RaftNode} {id : PeerID} {pr : Progress}
    (h : (r.asLeader env).trk[id]? = some pr) : ∃ pr₀, r.resetProgress id pr₀ = pr := by
  have hget : (r.trk.map r.resetProgress)[id]? = some pr := h
  rw [Std.ExtTreeMap.getElem?_map, Option.map_eq_some_iff] at hget
  obtain ⟨pr₀, -, heq⟩ := hget
  exact ⟨pr₀, heq⟩

theorem placed_invariant {ok : RaftNode → Message → Prop}
    (hok : ∀ r m, ok r m → Plausible r m) (elected : Nat) : Invariant ok elected AllPlaced where
  new {env r₀ pr} hs hlast := by
    have hle : ∀ id pr, (r₀.resetProgress id pr).matchIdx ≤ r₀.raftLog.lastIndex := by
      intro id pr
      show (if id = r₀.id then r₀.raftLog.lastIndex else 0) ≤ _
      split
      · exact le_rfl
      · exact Nat.zero_le _
    have hreset : ∀ id pr, Placed r₀.raftLog (r₀.resetProgress id pr) := fun id pr =>
      ⟨.of_idle (Inflights.inRing_new _ _) (Nat.lt_succ_of_le (hle id pr)) rfl, .inl le_rfl, nofun⟩
    have hall : (r₀.asLeader env).AllPlaced := by
      intro id pr hpr
      obtain ⟨pr₀, rfl⟩ := progress_asLeader hpr
      exact hreset id pr₀
    have hown : Placed r₀.raftLog
        { (r₀.resetProgress r₀.id pr).becomeReplicate with recentActive := true } :=
      ((hreset r₀.id pr).becomeReplicate hs).congr rfl rfl rfl rfl
    exact hall.setProgress hown
  hears {m r r'} hs hm h hhears := by
    cases hhears with
    | nothing => exact h
    | progress hpr hheard => exact h.setProgress (hheard.placed (h _ _ hpr) hs (hok r m hm))
  act hs h hact := h.act hs hact
  ready {r l} hsame h := by
    refine h.mono rfl hsame.lastIndex.ge ?_
    show _ ≤ l.firstIndex
    unfold firstIndex Unstable.maybeFirstIndex
    rw [hsame.snapshot, hsame.storage]
  storage {r st} hs hst h := by
    refine h.mono rfl le_rfl ?_
    rw [hs.firstIndex, (hst.settled hs).firstIndex]
    exact Nat.succ_le_succ hst.base_ge

/-- Through every term in which acknowledgements are plausible, `Match < Next`
for every peer, and the messages in flight to a replicating one end at
increasing indices between the two. -/
theorem progress_window {elected : Nat} (h : Tenure Plausible elected r) {id : PeerID}
    (hpr : r.trk[id]? = some pr) : pr.matchIdx < pr.next ∧
      (pr.state = .replicate → pr.inflights.indexes.Pairwise (· < ·) ∧
        ∀ i ∈ pr.inflights.indexes, pr.matchIdx < i ∧ i < pr.next) := by
  have hplaced := (h.invariant (placed_invariant (fun _ _ h => h) elected)).2 id pr hpr
  exact ⟨hplaced.window.match_lt,
    fun hrep => ⟨hplaced.window.increasing hrep, hplaced.window.inside hrep⟩⟩

/-! ## Snapshots on their way -/

/-- While a snapshot is on its way, `Next` and `SentCommit` stay with it. -/
def Frozen (pr : Progress) : Prop :=
  pr.state = .snapshot → pr.next = pr.pendingSnapshot + 1 ∧ pr.sentCommit = pr.pendingSnapshot

/-- Nothing late comes from a peer that a snapshot is on its way to: no rejection
of the entry at `Next - 1`, no commit index above the snapshot, and no
acknowledgement above the snapshot that does not reach the log of the leader. -/
def Undisturbed (r : RaftNode) (m : Message) : Prop :=
  r.Plausible m ∧ ∀ pr, r.trk[m.src]? = some pr → pr.state = .snapshot → m.type = .appResp →
    m.commit ≤ pr.sentCommit ∧ (m.reject = true → m.index ≠ pr.next - 1) ∧
      (m.reject = false → m.index ≤ pr.pendingSnapshot ∨ r.raftLog.firstIndex ≤ m.index + 1)

/-- All of them, and the leader sends no snapshot to itself. -/
structure AllFrozen (r : RaftNode) : Prop where
  frozen : ∀ (id : PeerID) (pr : Progress), r.trk[id]? = some pr → Frozen pr
  own : ∀ pr, r.trk[r.id]? = some pr → pr.state ≠ .snapshot

omit [Codec] in
theorem AllFrozen.congr (h : r.AllFrozen) (htrk : r'.trk = r.trk) (hid : r'.id = r.id) :
    r'.AllFrozen where
  frozen id pr hpr := h.frozen id pr (htrk ▸ hpr)
  own pr hpr := h.own pr (by rw [← htrk, ← hid]; exact hpr)

omit [Codec] in
theorem AllFrozen.setProgress (h : r.AllFrozen) {id : PeerID} (hf : Frozen pr)
    (hown : id = r.id → pr.state ≠ .snapshot) : (r.setProgress id pr).AllFrozen := by
  have hget : ∀ {k pr'}, (r.setProgress id pr).trk[k]? = some pr' →
      id = k ∧ pr = pr' ∨ r.trk[k]? = some pr' := by
    intro k pr' hpr'
    have hinsert : (r.trk.insert id pr)[k]? = some pr' := hpr'
    rw [Std.ExtTreeMap.getElem?_insert] at hinsert
    split at hinsert
    · cases hinsert
      exact .inl ⟨compare_eq_iff_eq.mp ‹_›, rfl⟩
    · exact .inr hinsert
  constructor
  · intro k pr' hpr'
    rcases hget hpr' with ⟨-, rfl⟩ | hpr'
    · exact hf
    · exact h.frozen k pr' hpr'
  · intro pr' hpr'
    rcases hget hpr' with ⟨hid, rfl⟩ | hpr'
    · exact hown hid
    · exact h.own pr' hpr'

theorem Sent.frozen (h : Sent l pr pr') (hp : Placed l pr) (hf : Frozen pr) : Frozen pr' := by
  have hkeep : ∀ (pr : Progress) commit, (pr.maybeUpdateSentCommit commit).state = pr.state := by
    intro pr commit
    unfold Progress.maybeUpdateSentCommit
    split <;> rfl
  cases h with
  | @app entries pr₁ hstate hread hsent =>
    intro hs
    rw [hkeep] at hs
    have hsame : pr₁.state = pr.state := by
      unfold sentEntries at hsent
      split at hsent
      · obtain ⟨_, -, hsent⟩ := bind_eq_ok.mp hsent
        cases hsent
        rfl
      · cases hsent
        rfl
    exact absurd (hsame.symm.trans hs) hstate
  | snap => exact fun _ => ⟨rfl, rfl⟩
  | @heartbeat commit hc =>
    intro hs
    rw [hkeep] at hs
    obtain ⟨hnext, hsent⟩ := hf hs
    have hlt := hp.window.match_lt
    -- The commit index of a heartbeat is at most `Match`, which is below the snapshot.
    have hle : ¬ commit > pr.sentCommit := by omega
    unfold Progress.maybeUpdateSentCommit
    rw [if_neg hle]
    exact ⟨hnext, hsent⟩

omit [Codec] in
/-- A peer that a snapshot is on its way to after an answer was one before. -/
theorem Heard.snapshot (h : Heard r m pr pr') (hs : pr'.state = .snapshot) :
    pr.state = .snapshot := by
  have hanswered : (answered pr m).state = pr.state := by
    unfold answered maybeUpdateMatchCommit
    split <;> rfl
  have hdecr : ∀ {q : Progress} {i hint : Nat}, (q.maybeDecrTo i hint).2.state = q.state := by
    intro q i hint
    unfold Progress.maybeDecrTo
    split_ifs <;> rfl
  have hupdate : ∀ {q : Progress} {i : Nat}, (q.maybeUpdate i).2.state = q.state := by
    intro q i
    unfold maybeUpdate
    split_ifs <;> rfl
  cases h with
  | @decreased hint pr₁ hm h =>
    obtain rfl : ((answered pr m).maybeDecrTo m.index hint).2 = pr₁ := congrArg Prod.snd h
    split at hs
    · cases hs
    · exact hanswered.symm.trans (hdecr.symm.trans hs)
  | @stale hint _ hm h =>
    obtain rfl : ((answered pr m).maybeDecrTo m.index hint).2 = pr' := congrArg Prod.snd h
    exact hanswered.symm.trans (hdecr.symm.trans hs)
  | @matched updated pr₁ hm h hnew =>
    obtain rfl : ((answered pr m).maybeUpdate m.index).2 = pr₁ := congrArg Prod.snd h
    unfold afterMatch at hs
    split at hs
    · cases hs
    · exact hanswered.symm.trans (hupdate.symm.trans ‹_›)
    · exact hanswered.symm.trans (hupdate.symm.trans hs)
  | known hm h =>
    obtain rfl : ((answered pr m).maybeUpdate m.index).2 = pr' := congrArg Prod.snd h
    exact hanswered.symm.trans (hupdate.symm.trans hs)
  | snapStatus hstate => exact hstate
  | unreachable => cases hs

omit [Codec] in
theorem Heard.frozen (h : Heard r m pr pr') (hf : Frozen pr)
    (hpr : r.trk[m.src]? = some pr) (hok : r.Undisturbed m) : Frozen pr' := by
  intro hs
  have hstate := h.snapshot hs
  obtain ⟨hnext, hsent⟩ := hf hstate
  have hquiet := hok.2 pr hpr hstate
  have hanswered : m.type = .appResp → (answered pr m).next = pr.next ∧
      (answered pr m).pendingSnapshot = pr.pendingSnapshot ∧
      (answered pr m).sentCommit = pr.sentCommit ∧ (answered pr m).state = pr.state ∧
      (answered pr m).matchIdx = pr.matchIdx := by
    intro hm
    have hcommit := (hquiet hm).1
    unfold answered maybeUpdateMatchCommit
    split
    · refine ⟨rfl, rfl, ?_, rfl, rfl⟩
      exact max_eq_left hcommit
    · exact ⟨rfl, rfl, rfl, rfl, rfl⟩
  -- A rejection is of a probe that was sent before the snapshot.
  have hstale : ∀ hint, m.type = .appResp ∧ m.reject = true →
      (answered pr m).maybeDecrTo m.index hint = (false, answered pr m) := by
    intro hint hm
    obtain ⟨hn, -, -, hst, -⟩ := hanswered hm.1
    have hne := (hquiet hm.1).2.1 hm.2
    unfold Progress.maybeDecrTo
    rw [hst, hstate, if_neg ProgressState.noConfusion, hn, if_pos hne.symm]
  cases h with
  | @decreased hint pr₁ hm h => cases (hstale hint hm).symm.trans h
  | @stale hint _ hm h =>
    obtain ⟨hn, hpend, hsc, -, -⟩ := hanswered hm.1
    cases (hstale hint hm).symm.trans h
    exact ⟨hn.trans (hnext.trans (congrArg (· + 1) hpend.symm)), hsc.trans (hsent.trans hpend.symm)⟩
  | @matched updated pr₁ hm h hnew =>
    obtain ⟨hn, hpend, hsc, hst, hmi⟩ := hanswered hm.1
    have hreach := (hquiet hm.1).2.2 hm.2
    unfold maybeUpdate at h
    split at h
    · cases h
      rw [hst, hstate] at hnew
      rcases hnew with hnew | ⟨-, hnew⟩ <;> cases hnew
    · cases h
      unfold afterMatch at hs ⊢
      dsimp only at hs ⊢
      rw [hst, hstate] at hs ⊢
      dsimp only at hs ⊢
      split at hs
      · cases hs
      · rename_i hbehind
        rw [if_neg hbehind]
        refine ⟨?_, hsc.trans (hsent.trans hpend.symm)⟩
        show max (answered pr m).next (m.index + 1) = (answered pr m).pendingSnapshot + 1
        omega
  | known hm h =>
    obtain ⟨hn, hpend, hsc, -, -⟩ := hanswered hm.1
    unfold maybeUpdate at h
    split at h
    · cases h
      exact ⟨hn.trans (hnext.trans (congrArg (· + 1) hpend.symm)),
        hsc.trans (hsent.trans hpend.symm)⟩
    · cases h
  | snapStatus => cases hs
  | unreachable => cases hs

theorem AllFrozen.act (h : r.AllFrozen) (hp : r.AllPlaced) (hact : Act inp r r') :
    r'.AllFrozen := by
  cases hact with
  | rest hsame => exact h.congr hsame.trk hsame.id
  | sent hpr hid hsent =>
    exact h.setProgress (hsent.frozen (hp _ _ hpr) (h.frozen _ _ hpr)) fun h => absurd h hid
  | @track cfg trk isLearner htrk =>
    have hsame : ∀ (id : PeerID) (pr' : Progress), trk[id]? = some pr' → Frozen pr' ∧
        (pr'.state = .snapshot → ∃ pr, r.trk[id]? = some pr ∧ pr.state = .snapshot) := by
      intro id pr' hpr'
      rcases htrk id pr' hpr' with ⟨pr, hpr, _, _, _, rfl⟩ | ⟨b, rfl⟩
      · exact ⟨h.frozen id pr hpr, fun hs => ⟨pr, hpr, hs⟩⟩
      · exact ⟨nofun, nofun⟩
    refine ⟨fun id pr hpr => (hsame id pr hpr).1, fun pr hpr hs => ?_⟩
    obtain ⟨pr₀, hpr₀, hs₀⟩ := (hsame r.id pr hpr).2 hs
    exact h.own pr₀ hpr₀ hs₀
  | reserve hcheck =>
    rw [checkConfChanges_frame hcheck]
    exact h.congr rfl rfl
  | @propose es es' r₁ last l pr hcheck hlast hl hpr =>
    have hne := h.own pr hpr
    have hset : (r.setProgress r.id { pr with next := last.index + es'.length + 1 }).AllFrozen :=
      h.setProgress (fun hs => absurd hs hne) fun _ => hne
    exact hset.congr rfl rfl
  | commit | applied | snapped | stable => exact h.congr rfl rfl

theorem frozen_invariant (elected : Nat) :
    Invariant Undisturbed elected fun r => r.AllPlaced ∧ r.AllFrozen := by
  have hplaced : Invariant Undisturbed elected AllPlaced :=
    placed_invariant (fun _ _ h => h.1) elected
  refine ⟨fun {env r₀ pr} hs hlast => ⟨hplaced.new hs hlast, ?_⟩,
    fun {m r r'} hs hok h hhears => ?_,
    fun hs h hact => ⟨hplaced.act hs h.1 hact, h.2.act h.1 hact⟩,
    fun hsame h => ⟨hplaced.ready hsame h.1, h.2.congr rfl rfl⟩,
    fun hs hst h => ⟨hplaced.storage hs hst h.1, h.2.congr rfl rfl⟩⟩
  · -- Every peer starts the term in `StateProbe`, and the leader replicates to itself.
    have hprobe : ∀ (id : PeerID) (pr : Progress), (r₀.asLeader env).trk[id]? = some pr →
        pr.state ≠ .snapshot := by
      intro id pr hpr
      obtain ⟨pr₀, rfl⟩ := progress_asLeader hpr
      exact nofun
    have hall : (r₀.asLeader env).AllFrozen :=
      ⟨fun id pr hpr hs => absurd hs (hprobe id pr hpr), fun pr hpr => hprobe _ pr hpr⟩
    have hset : ((r₀.asLeader env).setProgress r₀.id
        { (r₀.resetProgress r₀.id pr).becomeReplicate with recentActive := true }).AllFrozen :=
      hall.setProgress nofun fun _ => nofun
    exact hset.congr rfl rfl
  · refine ⟨hplaced.hears hs hok h.1 hhears, ?_⟩
    cases hhears with
    | nothing => exact h.2
    | progress hpr hheard =>
      refine h.2.setProgress (hheard.frozen (h.2.frozen _ _ hpr) hpr hok) ?_
      intro hid hsnap
      exact h.2.own _ (hid ▸ hpr) (hheard.snapshot hsnap)

/-- Through every term in which nothing late comes from a peer that a snapshot is
on its way to, its `Next` and `SentCommit` stay with the snapshot. -/
theorem snapshot_frozen {elected : Nat} (h : Tenure Undisturbed elected r) {id : PeerID}
    (hpr : r.trk[id]? = some pr) (hs : pr.state = .snapshot) :
    pr.next = pr.pendingSnapshot + 1 ∧ pr.sentCommit = pr.pendingSnapshot :=
  (h.invariant (frozen_invariant elected)).2.2.frozen id pr hpr hs

end Terms

/-! ## Two nodes

Node 1 has compacted its log up to index 5, and is elected with the vote of
node 2. -/

def pairLog : RaftLog where
  storage :=
    { hardState := { term := 1, commit := 5 }
      snapshot := { metadata := { confState := { voters := [1, 2] }, index := 5, term := 1 } }
      base := { term := 1, index := 5 } }
  unstable := { term := 1, prev := { term := 1, index := 5 }, entryInProgress := 5 }
  committed := 5
  applying := 5
  applied := 5
  maxApplyingEntsSize := 100

theorem settled_pairLog : pairLog.Settled :=
  ⟨rfl, le_rfl, le_rfl, nofun, le_rfl, le_rfl, le_rfl⟩

/-- The candidate, with its own vote. -/
def pairCandidate : Except Panic RaftNode :=
  letI := wireCodec
  newRaft {} tightSettings pairLog.storage >>= fun r => r.step {} { type := .hup } >>= fun x =>
    x.2.step {} { type := .voteResp, src := 1, dst := 1, term := 2 } >>= fun x => return x.2

/-- Calls into a leader, as far as it stays one and they are `ok`. -/
def calls (ok : RaftNode → Message → Bool) (r : RaftNode) : List Message → Except Panic RaftNode
  | [] => return r
  | m :: ms =>
    letI := wireCodec
    r.step {} m >>= fun x =>
      assertTrue (ok r m = true ∧ m.type ≠ .storageAppendResp ∧ x.2.state = .leader ∧
        x.2.term = r.term) .nilProgress >>= fun _ => calls ok x.2 ms

theorem tenure_calls {P : RaftNode → Message → Prop} {ok : RaftNode → Message → Bool}
    (hok : ∀ r m, ok r m = true → P r m) {elected : Nat} :
    ∀ {ms : List Message} {r r' : RaftNode}, @Tenure wireCodec P elected r →
      calls ok r ms = .ok r' → @Tenure wireCodec P elected r'
  | [], _, _, hr, h => by
    cases h
    exact hr
  | m :: ms, r, r', hr, h => by
    let _ := wireCodec
    obtain ⟨⟨err, r₁⟩, hstep, h⟩ := bind_eq_ok.mp h
    obtain ⟨_, hcheck, h⟩ := bind_eq_ok.mp h
    obtain ⟨hm, hne, hl, ht⟩ := assertTrue_eq_ok.mp hcheck
    exact tenure_calls hok (.call hr (fun h => absurd h hne) (hok r m hm) hstep hl ht) h

/-- The election, and calls after it: what the log was, and the progress of node 2. -/
def pairRun (ok : RaftNode → Message → Bool) (ms : List Message) :
    Except Panic ((StateType × RaftLog × StateType) × Option Progress) :=
  letI := wireCodec
  pairCandidate >>= fun r₀ =>
    r₀.step {} { type := .voteResp, src := 2, dst := 1, term := 2 } >>= fun x =>
      calls ok x.2 ms >>= fun r =>
        return ((r₀.state, r₀.raftLog, x.2.state), r.trk[2]?)

theorem tenure_pairRun {P : RaftNode → Message → Prop} {ok : RaftNode → Message → Bool}
    (hok : ∀ r m, ok r m = true → P r m) {ms : List Message} {pr : Progress}
    (h : pairRun ok ms = .ok ((.candidate, pairLog, .leader), some pr)) :
    ∃ r : RaftNode, @Tenure wireCodec P 5 r ∧ r.trk[2]? = some pr := by
  let _ := wireCodec
  obtain ⟨r₀, -, h⟩ := bind_eq_ok.mp h
  obtain ⟨⟨err, r₁⟩, helect, h⟩ := bind_eq_ok.mp h
  obtain ⟨r, hcalls, h⟩ := bind_eq_ok.mp h
  simp only [pure, Except.pure, Except.ok.injEq, Prod.mk.injEq] at h
  obtain ⟨⟨hstate₀, hlog, hstate⟩, hpr⟩ := h
  have hne : r₀.state ≠ .leader := by
    rw [hstate₀]
    exact StateType.noConfusion
  have hlast : r₀.raftLog.lastIndex = 5 := by
    rw [hlog]
    rfl
  have htenure : Tenure P 5 r₁ :=
    .elect hne (hlog ▸ settled_pairLog) rfl helect hstate hlast
  exact ⟨r, tenure_calls hok htenure hcalls, hpr⟩

/-- Node 2 answers an append. -/
def pairAnswer (index : Nat) (reject : Bool) : Message where
  type := .appResp
  src := 2
  dst := 1
  term := 2
  index := index
  reject := reject

/-- The progress of node 2, but for what the runs below move. -/
def pairProgress : Progress where
  recentActive := true
  sentCommit := 5
  inflights := { size := 10, maxBytes := 2 ^ 64 - 1 }

instance (r : RaftNode) (m : Message) : Decidable (r.Plausible m) :=
  inferInstanceAs (Decidable (_ → _))

/-- With an entry on its way to a replicating peer. -/
theorem progress_window_replicate : ∃ (r : RaftNode) (pr : Progress),
    @Tenure wireCodec Plausible 5 r ∧ r.trk[2]? = some pr ∧ pr.state = .replicate ∧
      pr.inflights.indexes = [7] ∧ pr.matchIdx < pr.next := by
  let pr : Progress :=
    { pairProgress with
      state := .replicate, matchIdx := 6, next := 8, msgAppProbesPaused := true
      inflights := { pairProgress.inflights with count := 1, bytes := 1, buffer := [⟨7, 1⟩] } }
  have hrun : pairRun (fun r m => decide (r.Plausible m))
      [pairAnswer 6 false, { type := .prop, entries := [{ data := [1] }] }] =
        .ok ((.candidate, pairLog, .leader), some pr) := by
    decide +kernel
  obtain ⟨r, htenure, hpr⟩ := tenure_pairRun (fun _ _ => of_decide_eq_true) hrun
  exact ⟨r, pr, htenure, hpr, rfl, rfl, (@progress_window wireCodec _ _ _ htenure _ hpr).1⟩

/-- An acknowledgement above the log of the leader turns into a `Match` above it;
the next message to the peer finds no entry there, and a snapshot takes `Next`
back below `Match`. -/
theorem progress_window_overrun : ∃ (r : RaftNode) (pr : Progress),
    @Tenure wireCodec (fun _ _ => True) 5 r ∧ r.trk[2]? = some pr ∧ pr.matchIdx = 10 ∧
      pr.next = 6 := by
  have hrun : pairRun (fun _ _ => true)
      [pairAnswer 10 false, { pairAnswer 6 false with src := 1 }] =
        .ok ((.candidate, pairLog, .leader), some { pairProgress with
          state := .snapshot, matchIdx := 10, next := 6, pendingSnapshot := 5 }) := by
    decide +kernel
  obtain ⟨r, htenure, hpr⟩ := tenure_pairRun (fun _ _ _ => trivial) hrun
  exact ⟨r, _, htenure, hpr, rfl, rfl⟩

instance (r : RaftNode) (m : Message) : Decidable (r.Undisturbed m) :=
  inferInstanceAs (Decidable (r.Plausible m ∧ ∀ pr ∈ r.trk[m.src]?, pr.state = .snapshot →
    m.type = .appResp → m.commit ≤ pr.sentCommit ∧ (m.reject = true → m.index ≠ pr.next - 1) ∧
      (m.reject = false → m.index ≤ pr.pendingSnapshot ∨ r.raftLog.firstIndex ≤ m.index + 1)))

/-- A rejected append makes the leader send its snapshot. A heartbeat is answered, an older
append is rejected and another one acknowledged, all late, and an entry is proposed. -/
theorem snapshot_frozen_pair : ∃ (r : RaftNode) (pr : Progress),
    @Tenure wireCodec Undisturbed 5 r ∧ r.trk[2]? = some pr ∧ pr.state = .snapshot ∧
      pr.matchIdx = 3 ∧ pr.next = pr.pendingSnapshot + 1 ∧
      pr.sentCommit = pr.pendingSnapshot := by
  have hrun : pairRun (fun r m => decide (r.Undisturbed m))
      [pairAnswer 5 true, { pairAnswer 0 false with type := .heartbeatResp }, pairAnswer 4 true,
        pairAnswer 3 false, { type := .prop, entries := [{ data := [1] }] }] =
        .ok ((.candidate, pairLog, .leader), some { pairProgress with
          state := .snapshot, matchIdx := 3, next := 6, pendingSnapshot := 5 }) := by
    decide +kernel
  obtain ⟨r, htenure, hpr⟩ := tenure_pairRun (fun _ _ => of_decide_eq_true) hrun
  exact ⟨r, _, htenure, hpr, rfl, rfl, @snapshot_frozen wireCodec _ _ _ htenure _ hpr rfl⟩

/-- The same rejection once more, late or duplicated: the snapshot is still on its
way, and `Next` and `SentCommit` are not with it any more. -/
theorem snapshot_thawed : ∃ (r : RaftNode) (pr : Progress),
    @Tenure wireCodec Plausible 5 r ∧ r.trk[2]? = some pr ∧ pr.state = .snapshot ∧
      pr.pendingSnapshot = 5 ∧ pr.next = 1 ∧ pr.sentCommit = 0 := by
  have hrun : pairRun (fun r m => decide (r.Plausible m))
      [pairAnswer 5 true, pairAnswer 5 true] =
        .ok ((.candidate, pairLog, .leader), some { pairProgress with
          state := .snapshot, next := 1, pendingSnapshot := 5, sentCommit := 0 }) := by
    decide +kernel
  obtain ⟨r, htenure, hpr⟩ := tenure_pairRun (fun _ _ => of_decide_eq_true) hrun
  exact ⟨r, _, htenure, hpr, rfl, rfl, rfl, rfl⟩

end RaftNode

end Cockroach.Raft
