import Cockroach.Raft.ConfchangeOverlap
import Cockroach.Raft.Proposals
import Cockroach.Raft.StepWalk

/-!
# What a leader does

The calls into a leader that stays one, in detail: what they do to the progress
of each peer, to `pendingConfIndex` and to the log. A call first takes note of
its message (`Hears`), which is about the progress of one peer, and then goes on
in small steps (`Act`): it sends, appends, commits, hears from storage, or
changes the configuration.

Everything about a whole term of a leader starts from `step_elects`,
`step_serves`, `tick_acts` and `applyConfChange_acts`.
-/

namespace Cockroach.Raft

open Lib RaftLog

/-! ## Progress across configuration changes -/

namespace Confchange.Changer

/-- The progress that `initProgress` makes for a new peer. -/
def freshProgress (c : Changer) (isLearner : Bool) : Progress where
  next := max c.lastIndex 1
  inflights := .new c.maxInflight (.ofNat c.maxInflightBytes)
  isLearner := isLearner
  recentActive := true

/-- Every progress is new, or one of the old map up to its learner flag. -/
def Derived (c : Changer) (trk : ProgressMap) : Prop :=
  ∀ (id : PeerID) (pr' : Progress), trk[id]? = some pr' → ∃ isLearner : Bool,
    pr' = c.freshProgress isLearner ∨
      ∃ pr, c.progressMap[id]? = some pr ∧ pr' = { pr with isLearner }

variable {c : Changer} {cfg cfg' : Config} {trk trk' : ProgressMap}

theorem derived_self (c : Changer) : c.Derived c.progressMap :=
  fun _ pr hpr => ⟨pr.isLearner, .inr ⟨pr, hpr, rfl⟩⟩

section

variable (h : c.Derived trk)
include h

theorem Derived.insert {id : PeerID} {pr' : Progress}
    (hnew : ∃ isLearner : Bool, pr' = c.freshProgress isLearner ∨
      ∃ pr, c.progressMap[id]? = some pr ∧ pr' = { pr with isLearner }) :
    c.Derived (trk.insert id pr') := by
  intro k q hq
  rw [Std.ExtTreeMap.getElem?_insert] at hq
  split at hq
  · rename_i hk
    obtain rfl := compare_eq_iff_eq.mp hk
    cases hq
    exact hnew
  · exact h k q hq

theorem Derived.init (id : PeerID) (isLearner : Bool) :
    c.Derived (trk.insert id (c.freshProgress isLearner)) :=
  h.insert ⟨isLearner, .inl rfl⟩

/-- A progress of one map is put into another one, marked or not. -/
theorem Derived.learner {id : PeerID} {pr : Progress}
    (hpr : trk[id]? = some pr) (h' : c.Derived trk') (isLearner : Bool) :
    c.Derived (trk'.insert id { pr with isLearner }) := by
  obtain ⟨_, rfl | ⟨pr₀, hpr₀, rfl⟩⟩ := h id pr hpr
  · exact h'.insert ⟨isLearner, .inl rfl⟩
  · exact h'.insert ⟨isLearner, .inr ⟨pr₀, hpr₀, rfl⟩⟩

theorem Derived.erase (id : PeerID) : c.Derived (trk.erase id) := by
  intro k pr' hpr'
  rw [Std.ExtTreeMap.getElem?_erase] at hpr'
  split at hpr'
  · cases hpr'
  · exact h k pr' hpr'

theorem Derived.remove (cfg : Config) (id : PeerID) : c.Derived (Changer.remove cfg trk id).2 := by
  unfold Changer.remove
  split
  · exact h
  · dsimp only
    split
    · exact h.erase id
    · exact h

theorem Derived.makeLearner (cfg : Config) (id : PeerID) :
    c.Derived (c.makeLearner cfg trk id).2 := by
  unfold Changer.makeLearner
  split
  · exact h.init id true
  · rename_i pr hpr
    -- The progress is put back after the removal, marked or not.
    have hback := h.learner hpr (h.remove cfg id)
    split
    · exact h
    · dsimp only
      split
      · exact hback pr.isLearner
      · exact hback true

end

theorem Derived.applySingle {st st' : Config × ProgressMap} {cc : ConfChangeSingle}
    (h : c.Derived st.2) (hstep : c.applySingle st cc = .ok st') : c.Derived st'.2 := by
  unfold Changer.applySingle at hstep
  split at hstep
  · cases hstep
    exact h
  · split at hstep <;> cases hstep
    · unfold Changer.makeVoter
      split
      · exact h.init cc.nodeID false
      · exact h.learner ‹_› h false
    · exact h.makeLearner st.1 cc.nodeID
    · exact h.remove st.1 cc.nodeID
    · exact h

theorem Derived.apply {ccs : List ConfChangeSingle} (h : c.Derived trk)
    (happly : c.apply cfg trk ccs = .ok (cfg', trk')) : c.Derived trk' := by
  obtain ⟨st, hfold, happly⟩ := bind_eq_ok.mp happly
  have hst : c.Derived st.2 := by
    refine (Sat.foldlM (E := fun _ => True) (I := fun st => c.Derived st.2) ?_ h).elim hfold
    intro st cc _ hst
    rw [← Returns, returns_iff]
    exact fun st' hstep => hst.applySingle hstep
  dsimp only at happly
  split at happly
  · cases happly
  · cases happly
    exact hst

theorem Derived.foldl_erase (h : c.Derived trk) (ids : List PeerID) :
    c.Derived (ids.foldl (fun trk id => trk.erase id) trk) := by
  intro k pr' hpr'
  rw [getElem?_foldl_erase] at hpr'
  split at hpr'
  · cases hpr'
  · exact h k pr' hpr'

theorem derived_leaveJoint (h : c.leaveJoint = .ok (cfg', trk')) : c.Derived trk' := by
  simp only [Changer.leaveJoint, bind_eq_ok, Prod.exists, checkAndCopy_eq_ok] at h
  obtain ⟨_, _, ⟨-, rfl, rfl⟩, h⟩ := h
  split at h
  · cases h
  obtain ⟨-, -, rfl⟩ := checkAndReturn_eq_ok.mp h
  refine Derived.foldl_erase ?_ _
  intro k pr' hpr'
  rw [getElem?_foldl_modify (nodup_ascending _)] at hpr'
  split at hpr'
  · obtain ⟨pr, hpr, rfl⟩ := Option.map_eq_some_iff.mp hpr'
    exact ⟨true, .inr ⟨pr, hpr, rfl⟩⟩
  · exact c.derived_self k pr' hpr'

end Confchange.Changer

namespace RaftNode

/-- Nodes that differ in nothing that replication depends on. -/
structure SameLead (r r' : RaftNode) : Prop where
  id : r'.id = r.id
  term : r'.term = r.term
  state : r'.state = r.state
  raftLog : r'.raftLog = r.raftLog
  config : r'.config = r.config
  trk : r'.trk = r.trk
  pendingConfIndex : r'.pendingConfIndex = r.pendingConfIndex

/-- The flags of a progress, which only decide when something is sent. -/
def Flagged (pr pr' : Progress) : Prop :=
  ∃ active paused isLearner,
    pr' = { pr with recentActive := active, msgAppProbesPaused := paused, isLearner }

/-- The changer that `applyConfChange` uses. -/
def changer (r : RaftNode) : Confchange.Changer where
  config := r.config
  progressMap := r.trk
  maxInflight := r.maxInflight
  maxInflightBytes := r.maxInflightBytes
  lastIndex := r.raftLog.lastIndex

section Acts

variable [Codec]

/-- How sending to a peer changes its progress. -/
inductive Sent (l : RaftLog) (pr : Progress) : Progress → Prop
  | app {entries : List Entry} {pr' : Progress} (hs : pr.state ≠ .snapshot)
      (hread : entries = [] ∨ ∃ maxSize, l.entries pr.next maxSize = .ok (.ok entries))
      (h : pr.sentEntries entries.length (payloadsSize entries) = .ok pr') :
      Sent l pr (pr'.maybeUpdateSentCommit l.committed)
  | snap (hs : pr.state ≠ .snapshot)
      (herr : (∃ err, l.term (pr.next - 1) = .error err) ∨
        ∃ maxSize err, l.entries pr.next maxSize = .ok (.error err)) :
      Sent l pr (pr.becomeSnapshot l.snapshot.metadata.index)
  | heartbeat {commit : Nat} (hc : commit ≤ pr.matchIdx) :
      Sent l pr (pr.maybeUpdateSentCommit commit)

/-- One small step of a leader, in a call about the message `inp`. -/
inductive Act (inp : Message) (r : RaftNode) : RaftNode → Prop
  | rest {r' : RaftNode} (h : SameLead r r') : Act inp r r'
  | sent {id : PeerID} {pr pr' : Progress} (hpr : r.trk[id]? = some pr) (hid : id ≠ r.id)
      (h : Sent r.raftLog pr pr') : Act inp r (r.setProgress id pr')
  | track {cfg : Config} {trk : ProgressMap} {isLearner : Bool}
      (h : ∀ (id : PeerID) (pr' : Progress), trk[id]? = some pr' →
        (∃ pr, r.trk[id]? = some pr ∧ Flagged pr pr') ∨ ∃ b, pr' = r.changer.freshProgress b) :
      Act inp r { r with config := cfg, trk, isLearner }
  | reserve {es es' : List Entry} {r' : RaftNode}
      (hcheck : r.checkConfChanges 0 es = .ok (r', es')) : Act inp r r'
  | propose {es es' : List Entry} {r₁ : RaftNode} {last : EntryID} {l : RaftLog} {pr : Progress}
      (hcheck : r.checkConfChanges 0 es = .ok (r₁, es'))
      (hlast : r.raftLog.lastEntryID = .ok last)
      (hl : r.raftLog.append ⟨r.term, last, stamp r.term (last.index + 1) es'⟩ = some l)
      (hpr : r.trk[r.id]? = some pr) :
      Act inp r { r with
        pendingConfIndex := r₁.pendingConfIndex
        raftLog := l
        trk := r.trk.insert r.id { pr with next := last.index + es'.length + 1 } }
  | commit {mark : LogMark} {l : RaftLog} (h : r.raftLog.commitTo mark = .ok l) :
      Act inp r { r with raftLog := l }
  | applied {i size : Nat} {l : RaftLog} (h : r.raftLog.appliedTo i size = .ok l) :
      Act inp r { r with raftLog := l }
  | snapped {i : Nat} : Act inp r { r with raftLog := r.raftLog.stableSnapTo i }
  | stable {l : RaftLog} (hm : inp.type = .storageAppendResp)
      (h : r.raftLog.stableTo ⟨inp.logTerm, inp.index⟩ = .ok l) :
      Act inp r { r with raftLog := l }

/-- Small steps in a row. -/
abbrev Acts (inp : Message) : RaftNode → RaftNode → Prop := Relation.ReflTransGen (Act inp)

variable {env : Env} {inp : Message} {r r' : RaftNode}

/-- A leader stays who it is. -/
theorem Act.frame (h : Act inp r r') : r'.id = r.id ∧ r'.term = r.term ∧ r'.state = r.state := by
  cases h with
  | rest h => exact ⟨h.id, h.term, h.state⟩
  | reserve hcheck =>
    rw [checkConfChanges_frame hcheck]
    exact ⟨rfl, rfl, rfl⟩
  | _ => exact ⟨rfl, rfl, rfl⟩

theorem Acts.frame (h : Acts inp r r') : r'.id = r.id ∧ r'.term = r.term ∧ r'.state = r.state := by
  induction h with
  | refl => exact ⟨rfl, rfl, rfl⟩
  | tail _ hact ih =>
    obtain ⟨hid, hterm, hstate⟩ := hact.frame
    exact ⟨hid.trans ih.1, hterm.trans ih.2.1, hstate.trans ih.2.2⟩

/-! ## Sending -/

omit [Codec] in
theorem sameLead_post (r : RaftNode) (m : Message) : SameLead r (r.post m) := by
  unfold post
  split <;> exact ⟨rfl, rfl, rfl, rfl, rfl, rfl, rfl⟩

theorem Acts.rest (h : SameLead r r') : Acts inp r r' := .single (.rest h)

/-- Timers and transfers. -/
theorem rest_acts {elapsed heartbeat transferee : Nat} : Acts inp r
    { r with electionElapsed := elapsed, heartbeatElapsed := heartbeat
             leadTransferee := transferee } :=
  Acts.rest ⟨rfl, rfl, rfl, rfl, rfl, rfl, rfl⟩

theorem Acts.post (r : RaftNode) (m : Message) : Acts inp r (r.post m) := .rest (sameLead_post r m)

omit [Codec] in
/-- Nothing but responses is sent to oneself. -/
theorem send_dst (r : RaftNode) (m : Message) (hm : sentAfterAppend m.type = false) :
    Returns (r.send m) fun _ => m.dst ≠ r.id := by
  have hattach : Returns (r.attachTerm (if m.src = None then { m with src := r.id } else m))
      fun m' => m'.type = m.type ∧ m'.dst = m.dst := by
    unfold attachTerm
    obtain ⟨type, _⟩ := m
    split_ifs
    · cases type <;> exact Returns.seq fun _ _ => ⟨rfl, rfl⟩
    · cases type <;> exact Returns.seq fun _ _ => ⟨rfl, rfl⟩
  refine Sat.bind hattach fun m' hm' => ?_
  obtain ⟨htype, hdst⟩ := hm'
  rw [htype, hm, ← hdst]
  exact sat_assert_bind (fun _ => trivial) fun hne => hne

omit [Codec] in
theorem send_peer (r : RaftNode) (m : Message) (hm : sentAfterAppend m.type = false) :
    Returns (r.send m) fun r' => r' = r.post (r.stamped m) ∧ m.dst ≠ r.id :=
  ((send_spec r m).mono (fun _ _ => trivial) fun _ h => h).and (send_dst r m hm)

theorem send_acts (r : RaftNode) (m : Message) : Returns (r.send m) (Acts inp r) := by
  refine (send_spec r m).mono (fun _ _ => trivial) ?_
  rintro _ rfl
  exact Acts.post r _

/-- A message to a peer, and then what it means for its progress. -/
theorem post_sent {m : Message} {dst : PeerID} {pr pr' : Progress} (hpr : r.trk[dst]? = some pr)
    (hdst : dst ≠ r.id) (h : Sent r.raftLog pr pr') :
    Acts inp r ((r.post m).setProgress dst pr') := by
  have hsame := sameLead_post r m
  have hpr' : (r.post m).trk[dst]? = some pr := by rw [hsame.trk, hpr]
  have hdst' : dst ≠ (r.post m).id := by rw [hsame.id]; exact hdst
  have hsent : Sent (r.post m).raftLog pr pr' := by rw [hsame.raftLog]; exact h
  exact .tail (Acts.post r m) (.sent hpr' hdst' hsent)

variable {pr : Progress} {x : Except Panic RaftNode}

theorem maybeSendSnapshot_acts {dst : PeerID} (hpr : r.trk[dst]? = some pr)
    (h : Sent r.raftLog pr (pr.becomeSnapshot r.raftLog.snapshot.metadata.index)) :
    Returns (r.maybeSendSnapshot dst pr) fun a => Acts inp r a.2 := by
  unfold maybeSendSnapshot
  refine .ite (fun _ => .refl) fun _ => Returns.seq fun _ _ => ?_
  refine Sat.bind (send_peer _ _ rfl) ?_
  rintro r' ⟨hr', hdst⟩
  show Acts inp r r'
  rw [hr']
  exact .tail (.single (.sent hpr hdst h)) (.rest (sameLead_post _ _))

theorem sendHeartbeat_acts (dst : PeerID) : Returns (r.sendHeartbeat env dst) (Acts inp r) := by
  unfold sendHeartbeat
  cases hpr : r.trk[dst]? with
  | none => trivial
  | some pr =>
    dsimp only
    refine Sat.bind (send_peer _ _ rfl) ?_
    rintro _ ⟨rfl, hdst⟩
    refine post_sent hpr hdst (.heartbeat ?_)
    split
    · exact Nat.zero_le _
    · exact min_le_left _ _

/-- A loop over the peers. -/
theorem visit_acts {f : RaftNode → PeerID → Except Panic RaftNode}
    (hf : ∀ r' id, r'.id = r.id → Returns (f r' id) (Acts inp r')) :
    Returns (r.visit f) (Acts inp r) := by
  unfold visit
  refine Sat.foldlM (I := Acts inp r) (fun r' id _ hr' => ?_) .refl
  exact (hf r' id hr'.frame.1).imp fun _ h => hr'.trans h

theorem bcastHeartbeat_acts : Returns (r.bcastHeartbeat env) (Acts inp r) :=
  visit_acts fun _ id _ => .ite (fun _ => .refl) fun _ => sendHeartbeat_acts id

theorem sendFortify_acts (dst : PeerID) : Returns (r.sendFortify env dst) (Acts inp r) := by
  unfold sendFortify
  refine .ite (fun _ => .refl) fun _ => .ite (fun _ => ?_) fun _ => send_acts _ _
  show Acts inp r (if (env.supportFor r.lead).2 = true then _ else _)
  split
  · exact Acts.rest ⟨rfl, rfl, rfl, rfl, rfl, rfl, rfl⟩
  · exact .refl

theorem bcastFortify_acts : Returns (r.bcastFortify env) (Acts inp r) := by
  unfold bcastFortify
  exact Returns.seq fun _ _ => visit_acts fun _ id _ => sendFortify_acts id

/-- The entries to send are read from the log, if any are. -/
theorem entriesToSend_read (pr : Progress) : Returns (r.entriesToSend pr) fun x =>
    (∀ entries, x = .ok entries → entries = [] ∨
      ∃ maxSize, r.raftLog.entries pr.next maxSize = .ok (.ok entries)) ∧
    ∀ err, x = .error err → ∃ maxSize err, r.raftLog.entries pr.next maxSize =
      .ok (.error err) := by
  rw [returns_iff]
  intro x h
  unfold entriesToSend at h
  split at h
  · refine ⟨?_, ?_⟩
    · rintro entries rfl
      exact .inr ⟨_, h⟩
    · rintro err rfl
      exact ⟨_, err, h⟩
  · cases h
    refine ⟨?_, nofun⟩
    rintro entries ⟨⟩
    exact .inl rfl

theorem maybeSendAppend_acts (dst : PeerID) :
    Returns (r.maybeSendAppend env dst) fun a => Acts inp r a.2 := by
  unfold maybeSendAppend
  cases hpr : r.trk[dst]? with
  | none => trivial
  | some pr =>
    dsimp only
    refine .ite (fun _ => .refl) fun hsend => ?_
    have hs : pr.state ≠ .snapshot := by
      intro hs
      rw [Bool.not_eq_true, Bool.not_eq_false'] at hsend
      simp [Progress.shouldSendMsgApp, hs] at hsend
    cases hterm : r.raftLog.term (pr.next - 1) with
    | error err => exact maybeSendSnapshot_acts hpr (.snap hs (.inl ⟨err, hterm⟩))
    | ok prevTerm =>
      refine Sat.bind (entriesToSend_read pr) fun x hx => ?_
      cases x with
      | error err => exact maybeSendSnapshot_acts hpr (.snap hs (.inr (hx.2 err rfl)))
      | ok entries =>
        refine Sat.bind (send_peer _ _ rfl) ?_
        rintro _ ⟨rfl, hdst⟩
        exact Returns.seq fun pr' hpr' => post_sent hpr hdst (.app hs (hx.1 entries rfl) hpr')

theorem sendOne_acts (dst : PeerID) :
    Returns (do return (← r.maybeSendAppend env dst).2) (Acts inp r) :=
  Sat.bind (maybeSendAppend_acts dst) fun _ h => h

theorem bcastAppend_acts : Returns (r.bcastAppend env) (Acts inp r) :=
  visit_acts fun _ id _ => .ite (fun _ => .refl) fun _ => sendOne_acts id

theorem sendAppends_acts (dst : PeerID) :
    ∀ (fuel : Nat) {r : RaftNode}, Returns (sendAppends env fuel r dst) (Acts inp r)
  | 0, _ => trivial
  | fuel + 1, r => by
    unfold sendAppends
    refine Sat.bind (maybeSendAppend_acts dst) fun a ha => .ite (fun _ => ?_) fun _ => ha
    exact (sendAppends_acts dst fuel).imp fun _ h => ha.trans h

theorem sendAll_acts (dst : PeerID) : Returns (r.sendAll env dst) (Acts inp r) :=
  .ite (fun _ => .refl) fun _ => sendAppends_acts dst _

/-! ## Appending and committing -/

omit [Codec] in
@[simp] theorem length_stamp (term : Nat) : ∀ (index : Nat) (es : List Entry),
    (stamp term index es).length = es.length
  | _, [] => rfl
  | index, _ :: es => by rw [stamp, List.length_cons, List.length_cons, length_stamp]

omit [Codec] in
/-- What an append leaves behind, but for a message to the leader itself. -/
theorem appendEntry_eq_some {es : List Entry} (h : r.appendEntry es = .ok (some r')) :
    ∃ last l pr, r.raftLog.lastEntryID = .ok last ∧
      r.raftLog.append ⟨r.term, last, stamp r.term (last.index + 1) es⟩ = some l ∧
      r.trk[r.id]? = some pr ∧
      SameLead { r with
        raftLog := l
        trk := r.trk.insert r.id { pr with next := last.index + es.length + 1 } } r' := by
  obtain ⟨last, hlast, h⟩ := bind_eq_ok.mp h
  dsimp only at h
  split at h
  · cases h
  rename_i r₂ hsize
  obtain ⟨s, rfl⟩ := increaseUncommittedSize_eq hsize
  obtain ⟨_, -, h⟩ := bind_eq_ok.mp h
  split at h
  · cases h
  rename_i l hl
  dsimp only at h
  split at h
  · cases h
  rename_i pr hpr
  obtain ⟨r₃, hsend, h⟩ := bind_eq_ok.mp h
  cases h
  obtain rfl := (send_spec _ _).elim hsend
  refine ⟨last, l, pr, hlast, hl, hpr, ?_⟩
  obtain ⟨hid, hterm, hstate, hlog, hconf, htrk, hpend⟩ := sameLead_post _ _
  refine ⟨hid, hterm, hstate, hlog, hconf, htrk.trans ?_, hpend⟩
  simp [setProgress, LogSlice.lastIndex]

/-- Entries that have passed the loop of `stepLeader` are appended. -/
theorem appendEntry_acts {es es' : List Entry} {r₁ : RaftNode}
    (hcheck : r.checkConfChanges 0 es = .ok (r₁, es'))
    (h : r₁.appendEntry es' = .ok (some r')) : Acts inp r r' := by
  rw [checkConfChanges_frame hcheck] at h
  obtain ⟨last, l, pr, hlast, hl, hpr, hsame⟩ := appendEntry_eq_some h
  exact .tail (.single (.propose hcheck hlast hl hpr)) (.rest hsame)

theorem maybeCommit_acts : Returns r.maybeCommit fun a => Acts inp r a.2 := by
  unfold maybeCommit
  refine .ite (fun _ => .refl) fun _ => .ite (fun _ => .refl) fun _ => ?_
  exact Returns.seq fun l hl => .single (.commit hl)

theorem commitAndBcast_acts : Returns (r.commitAndBcast env) (Acts inp r) := by
  unfold commitAndBcast
  refine Sat.bind maybeCommit_acts fun a ha => .ite (fun _ => ?_) fun _ => ha
  exact bcastAppend_acts.imp fun _ h => ha.trans h

theorem leaderProp_acts (m : Message) : Returns (r.leaderProp env m) fun a => Acts inp r a.2 := by
  rw [returns_iff]
  intro a ha
  obtain ⟨-, -, ha⟩ := bind_eq_ok.mp ha
  split at ha
  · cases ha
    exact .refl
  · obtain ⟨⟨r₁, entries⟩, hcheck, ha⟩ := bind_eq_ok.mp ha
    obtain ⟨x, hx, ha⟩ := bind_eq_ok.mp ha
    cases x with
    | none =>
      cases ha
      exact .single (.reserve hcheck)
    | some r₂ =>
      obtain ⟨r₃, hbcast, ha⟩ := bind_eq_ok.mp ha
      cases ha
      exact (appendEntry_acts hcheck hx).trans (bcastAppend_acts.elim hbcast)

theorem autoLeave_acts : Returns (r.autoLeave env) (Acts inp r) := by
  unfold autoLeave
  exact .ite (fun _ => Sat.bind (leaderProp_acts leaveJointMsg) fun _ h => h) fun _ => .refl

theorem appliedTo_acts (index size : Nat) : Returns (r.appliedTo env index size) (Acts inp r) :=
  Returns.seq fun _ hl => autoLeave_acts.imp fun _ h => .trans (.single (.applied hl)) h

theorem storageAppendResp_acts (hm : inp.type = .storageAppendResp) :
    Returns (r.storageAppendResp env inp) (Acts inp r) := by
  unfold storageAppendResp
  have hsnap : Returns (r.ackSnapshot env inp.snapshot) (Acts inp r) := by
    unfold ackSnapshot
    split
    · exact .refl
    · exact (appliedTo_acts _ _).imp fun _ h => .trans (.single .snapped) h
  refine Sat.bind hsnap fun r₁ h₁ => .ite (fun _ => ?_) fun _ => h₁
  exact Returns.seq fun l hl => .tail h₁ (.stable hm hl)

theorem storageApplyResp_acts (m : Message) : Returns (r.storageApplyResp env m) (Acts inp r) := by
  unfold storageApplyResp
  split
  · exact .refl
  · exact Sat.bind (appliedTo_acts _ _) fun r₁ h₁ =>
      .tail h₁ (.rest ⟨rfl, rfl, rfl, rfl, rfl, rfl, rfl⟩)

/-! ## What a leader hears -/

/-- The answer of a peer, as far as every `MsgAppResp` counts. -/
def answered (pr : Progress) (m : Message) : Progress :=
  { pr with recentActive := true }.maybeUpdateMatchCommit m.commit

/-- How a message changes the progress of its sender, before anything else is done. -/
inductive Heard (r : RaftNode) (m : Message) (pr : Progress) : Progress → Prop
  | decreased {hint : Nat} {pr' : Progress} (hm : m.type = .appResp ∧ m.reject = true)
      (h : (answered pr m).maybeDecrTo m.index hint = (true, pr')) :
      Heard r m pr (if pr'.state = .replicate then pr'.becomeProbe else pr')
  | stale {hint : Nat} {pr' : Progress} (hm : m.type = .appResp ∧ m.reject = true)
      (h : (answered pr m).maybeDecrTo m.index hint = (false, pr')) : Heard r m pr pr'
  | matched {updated : Bool} {pr' : Progress} (hm : m.type = .appResp ∧ m.reject = false)
      (h : (answered pr m).maybeUpdate m.index = (updated, pr'))
      (hnew : updated = true ∨ pr'.matchIdx = m.index ∧ pr'.state = .probe) :
      Heard r m pr (r.afterMatch pr' m.index)
  | known {pr' : Progress} (hm : m.type = .appResp ∧ m.reject = false)
      (h : (answered pr m).maybeUpdate m.index = (false, pr')) : Heard r m pr pr'
  | snapStatus {pr' : Progress} (hs : pr.state = .snapshot)
      (h : pr' = if m.reject then { pr with pendingSnapshot := 0 } else pr) :
      Heard r m pr { pr'.becomeProbe with msgAppProbesPaused := true }
  | unreachable (hs : pr.state = .replicate) : Heard r m pr pr.becomeProbe

/-- A leader takes note of a message. -/
inductive Hears (m : Message) (r : RaftNode) : RaftNode → Prop
  | nothing : Hears m r r
  | progress {pr pr' : Progress} (hpr : r.trk[m.src]? = some pr) (h : Heard r m pr pr') :
      Hears m r (r.setProgress m.src pr')

/-- All that a call does to a leader that stays one. -/
def Serves (m : Message) (r r' : RaftNode) : Prop := ∃ r₁, Hears m r r₁ ∧ Acts m r₁ r'

theorem Acts.serves (h : Acts inp r r') : Serves inp r r' := ⟨r, .nothing, h⟩

/-- A computation that ends with a leader, or not. -/
abbrev Stays (m : Message) (r : RaftNode) (x : Except Panic RaftNode) : Prop :=
  Returns x fun r' => r'.state = .leader → Serves m r r'

theorem Stays.of_acts (h : Returns x (Acts inp r)) : Stays inp r x :=
  h.imp fun _ h _ => h.serves

omit [Codec] in
theorem becomeFollower_state (t : Nat) (l : PeerID) :
    Returns (r.becomeFollower env t l) fun r' => r'.state = .follower :=
  Returns.seq fun _ _ => rfl

omit [Codec] in
theorem transferLeader_state (dst : PeerID) :
    Returns (r.transferLeader env dst) fun r' => r'.state = .follower :=
  Returns.seq fun _ _ => Returns.seq fun _ _ => becomeFollower_state _ _

omit [Codec] in
/-- A leader that steps down is not followed further. -/
theorem returns_follower {P : RaftNode → Prop} (h : Returns x fun r' => r'.state = .follower) :
    Returns x fun r' => r'.state = .leader → P r' :=
  h.imp fun _ hf hl => nomatch hf.symm.trans hl

theorem setFlags_acts {id : PeerID} {pr pr' : Progress} (hpr : r.trk[id]? = some pr)
    (h : Flagged pr pr') : Acts inp r (r.setProgress id pr') := by
  refine .single (.track fun n q hq => ?_)
  rw [Std.ExtTreeMap.getElem?_insert] at hq
  split at hq
  · rename_i heq
    rw [compare_eq_iff_eq] at heq
    subst heq
    cases hq
    exact .inl ⟨pr, hpr, h⟩
  · exact .inl ⟨q, hq, _, _, _, rfl⟩

theorem leaderCheckQuorum_acts :
    Returns (r.leaderCheckQuorum env) fun r' => r'.state = .leader → Acts inp r r' := by
  unfold leaderCheckQuorum
  refine .ite (fun _ _ => ?_) fun _ => ?_
  · refine .single (.track fun n q hq => ?_)
    rw [Std.ExtTreeMap.getElem?_map, Option.map_eq_some_iff] at hq
    obtain ⟨pr, hpr, rfl⟩ := hq
    refine .inl ⟨pr, hpr, ?_⟩
    split
    · exact ⟨_, _, _, rfl⟩
    · exact ⟨_, _, _, rfl⟩
  · refine Sat.bind (becomeFollower_state _ _) fun r₁ h₁ hl => ?_
    cases h₁.symm.trans hl

section

variable (hpr : r.trk[inp.src]? = some pr)
include hpr

theorem leaderAppReject_stays (hm : inp.type = .appResp ∧ inp.reject = true) :
    Stays inp r (r.leaderAppReject env (answered pr inp) inp) := by
  unfold leaderAppReject
  dsimp only
  generalize (if inp.logTerm > 0 then (r.raftLog.findConflictByTerm inp.logTerm inp.rejectHint).1
    else inp.rejectHint) = hint
  rcases h : (answered pr inp).maybeDecrTo inp.index hint with ⟨decreased, pr'⟩
  cases decreased with
  | true =>
    exact (sendOne_acts inp.src).imp fun r' h' _ => ⟨_, .progress hpr (.decreased hm h), h'⟩
  | false => exact fun _ => ⟨_, .progress hpr (.stale hm h), .refl⟩

theorem leaderAppAccept_stays (hm : inp.type = .appResp ∧ inp.reject = false) :
    Stays inp r (r.leaderAppAccept env (answered pr inp) inp) := by
  unfold leaderAppAccept
  rcases h : (answered pr inp).maybeUpdate inp.index with ⟨updated, pr'⟩
  refine .ite (fun hnew => ?_) fun hold _ => ?_
  · refine Sat.bind (P := Acts inp _) commitAndBcast_acts fun r₁ h₁ => ?_
    refine Sat.bind (P := Acts inp _) (sendAll_acts inp.src) fun r₂ h₂ => ?_
    split
    · trivial
    · refine .ite (fun _ => returns_follower (transferLeader_state _)) fun _ _ => ?_
      exact ⟨_, .progress hpr (.matched hm h hnew), h₁.trans h₂⟩
  · have hfalse : updated = false := Bool.eq_false_iff.mpr fun ht => hold (.inl ht)
    subst hfalse
    exact ⟨_, .progress hpr (.known hm h), .refl⟩

theorem leaderTransfer_stays : Stays inp r (r.leaderTransfer env pr inp) := by
  unfold leaderTransfer
  refine .ite (fun _ _ => Acts.serves .refl) fun _ =>
    .ite (fun _ _ => Acts.serves .refl) fun _ => ?_
  refine .ite (fun _ _ => Acts.serves rest_acts) fun _ => .ite (fun _ => ?_) fun _ => ?_
  · exact returns_follower (transferLeader_state _)
  · refine (sendOne_acts inp.src).imp fun r' h' _ => Acts.serves (.trans ?_ h')
    exact .trans rest_acts (setFlags_acts hpr ⟨_, _, _, rfl⟩)

end

theorem leaderProgress_stays : Stays inp r (r.leaderProgress env inp) := by
  unfold leaderProgress
  cases hpr : r.trk[inp.src]? with
  | none => exact fun _ => Acts.serves .refl
  | some pr =>
    dsimp only
    split
    · rename_i hm
      refine .ite (fun hrej => leaderAppReject_stays hpr ⟨hm, hrej⟩) fun hrej => ?_
      exact leaderAppAccept_stays hpr ⟨hm, Bool.eq_false_iff.mpr hrej⟩
    · refine (sendOne_acts inp.src).imp fun r' h' _ => Acts.serves (.trans ?_ h')
      exact setFlags_acts hpr ⟨_, _, _, rfl⟩
    · refine .ite (fun _ _ => Acts.serves .refl) fun hs _ => ?_
      exact ⟨_, .progress hpr (.snapStatus (not_not.mp hs) rfl), .refl⟩
    · refine .ite (fun hs _ => ?_) fun _ _ => Acts.serves .refl
      exact ⟨_, .progress hpr (.unreachable hs), .refl⟩
    · exact leaderTransfer_stays hpr
    · exact fun _ => Acts.serves .refl

/-! ## `Step` at a leader -/

/-- The same for a step function. -/
abbrev StaysStep (m : Message) (r : RaftNode) (x : StepResult) : Prop :=
  Returns x fun a => a.2.state = .leader → Serves m r a.2

theorem Stays.quietly (h : Stays inp r x) : StaysStep inp r (quietly x) :=
  Sat.bind h fun _ h => h

theorem stepLeader_stays : StaysStep inp r (r.stepLeader env inp) := by
  unfold stepLeader
  split
  · exact (Stays.of_acts bcastHeartbeat_acts).quietly
  · exact Stays.quietly (leaderCheckQuorum_acts.imp fun _ h hl => (h hl).serves)
  · exact (leaderProp_acts inp).imp fun _ h _ => h.serves
  · exact fun _ => Acts.serves .refl
  · exact Returns.seq fun _ _ => leaderProgress_stays.quietly
  · exact leaderProgress_stays.quietly

theorem handleVote_acts (m : Message) : Returns (r.handleVote m) (Acts inp r) := by
  refine Returns.seq fun upToDate _ => .ite (fun _ => ?_) fun _ => send_acts _ _
  refine Sat.bind (send_acts _ _) fun r₁ (h₁ : Acts inp r r₁) => ?_
  show Acts inp r (if _ then _ else _)
  split
  · exact .tail h₁ (.rest ⟨rfl, rfl, rfl, rfl, rfl, rfl, rfl⟩)
  · exact h₁

theorem stepType_stays (hl : r.state = .leader) : StaysStep inp r (r.stepType env inp) := by
  unfold stepType
  split
  · unfold hup
    rw [if_pos hl]
    exact fun _ => Acts.serves .refl
  · exact (Stays.of_acts (storageAppendResp_acts ‹_›)).quietly
  · exact (Stays.of_acts (storageApplyResp_acts inp)).quietly
  · exact (Stays.of_acts (handleVote_acts inp)).quietly
  · exact (Stays.of_acts (handleVote_acts inp)).quietly
  · unfold stepRole
    rw [hl]
    exact stepLeader_stays

theorem lowerTerm_acts (m : Message) : Returns (r.lowerTerm m) (Acts inp r) := by
  unfold lowerTerm
  exact .ite (fun _ => send_acts _ _) fun _ => .ite (fun _ => send_acts _ _) fun _ => .refl

omit [Codec] in
theorem becomeFollower_term (t : Nat) (l : PeerID) :
    Returns (r.becomeFollower env t l) fun r' => r'.term = t := by
  refine Returns.seq fun r₁ hr₁ => ?_
  show r₁.term = t
  unfold reset at hr₁
  split at hr₁
  · cases hr₁
    assumption
  · obtain ⟨_, -, hr₁⟩ := bind_eq_ok.mp hr₁
    obtain ⟨_, -, hr₁⟩ := bind_eq_ok.mp hr₁
    cases hr₁
    rfl

/-- A call does not take a node back from the term of its message. -/
theorem Micro.term_ge (h : Micro env inp r r') (hr : inp.term ≤ r.term) : inp.term ≤ r'.term := by
  cases h with
  | quiet hs => exact hr.trans hs.term.ge
  | send hs => exact hr.trans (SameCore.post r _).term.ge
  | @follow t l hf =>
    have hterm : (r.asFollower env t l).term = t := atTerm_term r t
    rw [hterm]
    cases hf with
    | higher => exact le_rfl
    | leader => exact le_rfl
    | same => exact hr
    | stepDown => exact hr
  | campaign =>
    have hterm : (r.asCandidate env).term = r.term + 1 := atTerm_term r _
    rw [hterm]
    omega
  | propose | accept | ackCommitted | snapRestore | grant => simpa using hr
  | matched hs ht hm hk hlt heq =>
    rw [heq]
    exact hr
  | _ => exact hr

theorem Steps.term_ge (h : Steps env inp r r') (hr : inp.term ≤ r.term) : inp.term ≤ r'.term := by
  induction h with
  | refl => exact hr
  | tail _ hstep ih => exact hstep.term_ge ih

/-- A follower of the term of the message does not come back from it. -/
theorem becomeFollower_stepType (l : PeerID) :
    Returns (r.becomeFollower env inp.term l >>= fun r => r.stepType env inp) fun a =>
      inp.term ≤ a.2.term := by
  refine Sat.bind (becomeFollower_term _ _) fun r₁ h₁ => ?_
  have hwalk : Walks env inp r₁ (r₁.stepType env inp) Prod.snd fun _ => True :=
    stepType_walks (.inl (.inr h₁.symm))
  exact hwalk.mono (fun _ _ => trivial) fun a ha => ha.1.term_ge h₁.ge

/-- A message of a higher term leaves the leader alone, or ends its term. -/
theorem higherTerm_stays (hgt : r.term < inp.term) {Q : RaftNode → Prop}
    (htype : Returns (r.stepType env inp) fun a => a.2.state = .leader → Q a.2) :
    Returns (r.higherTerm env inp >>= fun r => r.stepType env inp) fun a =>
      a.2.state = .leader → a.2.term = r.term → Q a.2 := by
  have hraised : ∀ {a : Option StepErr × RaftNode}, inp.term ≤ a.2.term →
      a.2.state = .leader → a.2.term = r.term → Q a.2 := by
    intro a ha _ hterm
    omega
  unfold higherTerm
  split
  · exact htype.imp fun a ha hlead _ => ha hlead
  · split
    · rw [deFortify_higher hgt]
      exact (becomeFollower_stepType inp.src).imp fun _ => hraised
    · exact (becomeFollower_stepType None).imp fun _ => hraised

theorem stepVote_acts (hm : inp.type = .vote ∨ inp.type = .preVote) :
    Returns (r.stepType env inp) fun a => Acts inp r a.2 := by
  have hvote : Returns (quietly (r.handleVote inp)) fun a => Acts inp r a.2 :=
    Sat.bind (handleVote_acts inp) fun _ h => h
  unfold stepType
  rcases hm with hm | hm
  · rw [hm]
    exact hvote
  · rw [hm]
    exact hvote

section

variable (hl : r.state = .leader)
include hl

/-- A call into a leader that is one afterwards, in the same term. -/
theorem step_serves : Returns (r.step env inp) fun a =>
      a.2.state = .leader → a.2.term = r.term → Serves inp r a.2 := by
  unfold step
  refine .ite (fun _ => ?_) fun _ => .ite (fun hgt => .ite (fun hm => ?_) fun _ => ?_) fun _ =>
    .ite (fun _ => ?_) fun _ => ?_
  · exact (stepType_stays hl).imp fun a ha hlead _ => ha hlead
  · -- A vote request may withdraw the support of the leader for itself.
    refine Sat.bind ((leaveLeader_walks hgt).mono (fun _ _ => trivial) fun _ h => h.2)
      fun o ho => ?_
    cases o with
    | none => exact fun _ _ => Acts.serves .refl
    | some r₁ =>
      have hsame : SameLead r r₁ := by
        rw [ho r₁ rfl]
        exact ⟨rfl, rfl, rfl, rfl, rfl, rfl, rfl⟩
      have hvote : Returns (r₁.stepType env inp) fun a => a.2.state = .leader →
          Serves inp r a.2 :=
        (stepVote_acts hm).imp fun a ha _ => Acts.serves ((Acts.rest hsame).trans ha)
      rw [← hsame.term] at hgt ⊢
      exact higherTerm_stays hgt hvote
  · exact higherTerm_stays hgt (stepType_stays hl)
  · exact (Stays.of_acts (lowerTerm_acts inp)).quietly.imp fun a ha hlead _ => ha hlead
  · exact (stepType_stays hl).imp fun a ha hlead _ => ha hlead

/-! ## Ticks and configuration changes -/

theorem stepCheckQuorum_acts (id : PeerID) :
    Returns (r.step env { src := id, type := .checkQuorum }) fun a =>
      a.2.state = .leader → Acts inp r a.2 := by
  rw [stepLeader_local hl rfl (.inl rfl)]
  exact Sat.bind leaderCheckQuorum_acts fun _ h => h

theorem stepBeat_acts (id : PeerID) :
    Returns (r.step env { src := id, type := .beat }) fun a => Acts inp r a.2 := by
  rw [stepLeader_local hl rfl (.inr rfl)]
  exact Sat.bind bcastHeartbeat_acts fun _ h => h

theorem tickCheckQuorum_acts : Returns (r.tickCheckQuorum env) fun a =>
      (a.1 = true → a.2.state = .leader) ∧ (a.2.state = .leader → Acts inp r a.2) := by
  unfold tickCheckQuorum
  refine .ite (fun _ => ⟨fun _ => hl, fun _ => .refl⟩) fun _ => ?_
  generalize hr₁ : ({ r with electionElapsed := 0 } : RaftNode) = r₁
  have hsame : SameLead r r₁ := by
    rw [← hr₁]
    exact ⟨rfl, rfl, rfl, rfl, rfl, rfl, rfl⟩
  have hl₁ : r₁.state = .leader := hsame.state.trans hl
  have h₁ : Acts inp r r₁ := Acts.rest hsame
  refine .ite (fun _ => ?_) fun _ => ⟨fun _ => hl₁, fun _ => h₁.trans rest_acts⟩
  refine Sat.bind (P := fun a => a.2.state = .leader → Acts inp r₁ a.2)
    (stepCheckQuorum_acts hl₁ _) fun a ha => .ite (fun hlead => ?_) fun hno => ?_
  · exact ⟨fun _ => hlead, fun _ => h₁.trans ((ha hlead).trans rest_acts)⟩
  · exact ⟨nofun, fun h => absurd h hno⟩

/-- `Tick` at a leader that stays one. -/
theorem tick_acts : Returns (r.tick env) fun r' => r'.state = .leader → Acts inp r r' := by
  unfold tick tickHeartbeat
  rw [if_pos hl]
  refine Returns.seq fun _ _ => ?_
  dsimp only
  generalize hr₁ : ({ r with heartbeatElapsed := r.heartbeatElapsed + 1
                             electionElapsed := r.electionElapsed + 1 } : RaftNode) = r₁
  have hsame : SameLead r r₁ := by
    rw [← hr₁]
    exact ⟨rfl, rfl, rfl, rfl, rfl, rfl, rfl⟩
  refine Sat.bind (P := fun a => (a.1 = true → a.2.state = .leader) ∧
      (a.2.state = .leader → Acts inp r₁ a.2))
    (tickCheckQuorum_acts (hsame.state.trans hl)) fun a ha => ?_
  refine .ite (fun hbeat => ?_) fun _ h => (Acts.rest hsame).trans (ha.2 h)
  have hlead := ha.1 hbeat.1
  have hacts : Acts inp r a.2 := (Acts.rest hsame).trans (ha.2 hlead)
  generalize hr₂ : ({ a.2 with heartbeatElapsed := 0 } : RaftNode) = r₂
  have hsame' : SameLead a.2 r₂ := by
    rw [← hr₂]
    exact ⟨rfl, rfl, rfl, rfl, rfl, rfl, rfl⟩
  refine Sat.bind (P := fun a => Acts inp r₂ a.2) (stepBeat_acts (hsame'.state.trans hlead) _)
    fun b hb _ => ?_
  exact hacts.trans ((Acts.rest hsame').trans hb)

end

theorem leadNewConfig_acts : Returns (r.leadNewConfig env) (Acts inp r) := by
  unfold leadNewConfig
  refine Sat.bind (P := fun a => Acts inp r a.2) maybeCommit_acts fun a ha => ?_
  refine Sat.bind (P := Acts inp a.2) bcastAppend_acts fun r₁ h₁ => ?_
  show Acts inp r (if _ then _ else _)
  split
  · exact ha.trans (h₁.trans rest_acts)
  · exact ha.trans h₁

/-- `switchToConfig` at a leader that stays one. -/
theorem switchToConfig_acts {cfg : Config} {trk : ProgressMap} (htrk : r.changer.Derived trk) :
    Returns (r.switchToConfig env cfg trk) fun r' => r'.state = .leader → Acts inp r r' := by
  have htrack : ∀ isLearner : Bool, Acts inp r { r with config := cfg, trk, isLearner } := by
    refine fun isLearner => .single (.track fun id pr' hpr' => ?_)
    obtain ⟨b, rfl | ⟨pr, hpr, rfl⟩⟩ := htrk id pr' hpr'
    · exact .inr ⟨b, rfl⟩
    · exact .inl ⟨pr, hpr, _, _, _, rfl⟩
  unfold switchToConfig
  refine .ite (fun _ => .ite (fun _ => ?_) fun _ _ => htrack _) fun _ =>
    .ite (fun _ _ => htrack _) fun _ => ?_
  · exact returns_follower (becomeFollower_state _ _)
  · exact leadNewConfig_acts.imp fun r' h _ => (htrack _).trans h

/-- `applyConfChange` at a leader that stays one. -/
theorem applyConfChange_acts (cc : ConfChangeV2) :
    Returns (r.applyConfChange env cc) fun r' => r'.state = .leader → Acts inp r r' := by
  unfold applyConfChange
  dsimp only
  split
  · trivial
  · rename_i cfg trk h
    refine switchToConfig_acts ?_
    split at h
    · exact Confchange.Changer.derived_leaveJoint h
    · split at h
      · obtain ⟨-, -, -, _, happly, -⟩ := Confchange.enterJoint_eq_ok.mp h
        exact r.changer.derived_self.apply happly
      · obtain ⟨-, -, happly, -⟩ := Confchange.simple_eq_ok.mp h
        exact r.changer.derived_self.apply happly

/-! ## Elections -/

/-- A leader of a new term, before its first entry. -/
def newLeader (env : Env) (r : RaftNode) (pr : Progress) : RaftNode :=
  { (r.asLeader env).setProgress r.id { pr.becomeReplicate with recentActive := true } with
    pendingConfIndex := r.raftLog.lastIndex }

omit [Codec] in
/-- An entry is accepted under the term of the leader. -/
theorem appendEntry_accTerm {es : List Entry} {r' : RaftNode}
    (h : r.appendEntry es = .ok (some r')) : r'.raftLog.accTerm = r'.term := by
  obtain ⟨last, l, pr, -, hl, -, hsame⟩ := appendEntry_eq_some h
  rw [hsame.raftLog, hsame.term, append_eq_some hl]
  rfl

omit [Codec] in
theorem becomeLeader_eq_ok {r' : RaftNode} (h : r.becomeLeader env = .ok r') : ∃ pr,
    r.trk[r.id]? = some pr ∧
      (r.newLeader env (r.resetProgress r.id pr)).appendEntry [{}] = .ok (some r') := by
  obtain ⟨-, -, h⟩ := bind_eq_ok.mp h
  obtain ⟨r₁, hr₁, h⟩ := bind_eq_ok.mp h
  obtain rfl : r₁ = r.resetRest env := by
    unfold reset at hr₁
    rw [if_pos rfl] at hr₁
    cases hr₁
    rfl
  dsimp only at h
  split at h
  · cases h
  · rename_i pr' hpr'
    have hreset : (r.trk.map r.resetProgress)[r.id]? = some pr' := hpr'
    rw [Std.ExtTreeMap.getElem?_map, Option.map_eq_some_iff] at hreset
    obtain ⟨pr, hpr, rfl⟩ := hreset
    obtain ⟨o, ho, h⟩ := bind_eq_ok.mp h
    cases o with
    | none => cases h
    | some r₂ =>
      cases h
      exact ⟨pr, hpr, ho⟩

/-- A leader is elected, by the votes of a candidate. -/
structure Elected (env : Env) (m : Message) (r₀ r : RaftNode) : Prop where
  acts : ∃ pr, r₀.trk[r₀.id]? = some pr ∧
    Acts m (r₀.newLeader env (r₀.resetProgress r₀.id pr)) r
  accTerm : r.raftLog.accTerm = r.term

theorem Act.accTerm (h : Act inp r r') (ht : r.raftLog.accTerm = r.term) :
    r'.raftLog.accTerm = r'.term := by
  cases h with
  | rest h => rw [h.raftLog, h.term, ht]
  | sent | track => exact ht
  | reserve hcheck =>
    rw [checkConfChanges_frame hcheck]
    exact ht
  | propose hcheck hlast hl hpr =>
    rw [append_eq_some hl]
    rfl
  | commit h =>
    rcases commitTo_eq_ok h with rfl | ⟨-, -, rfl⟩
    · exact ht
    · exact ht
  | applied h =>
    obtain ⟨-, -, _, _, _, rfl⟩ := appliedTo_eq_ok h
    exact ht
  | snapped =>
    rw [← ht]
    unfold stableSnapTo Unstable.stableSnapTo accTerm
    split <;> rfl
  | stable hm h =>
    rcases stableTo_eq_ok h with rfl | ⟨-, -, -, rfl⟩
    · exact ht
    · exact ht

theorem Acts.accTerm (h : Acts inp r r') (ht : r.raftLog.accTerm = r.term) :
    r'.raftLog.accTerm = r'.term := by
  induction h with
  | refl => exact ht
  | tail _ hact ih => exact hact.accTerm ih

theorem tally_elects (hs : r.state = .candidate) :
    Returns (r.tally env) fun r' => r'.state = .leader → Elected env inp r r' := by
  unfold tally
  split
  · rw [if_neg (by rw [hs]; exact StateType.noConfusion)]
    rw [returns_iff]
    intro r' hr' _
    obtain ⟨r₁, hr₁, hr'⟩ := bind_eq_ok.mp hr'
    obtain ⟨r₂, hr₂, hr'⟩ := bind_eq_ok.mp hr'
    obtain ⟨pr, hpr, happ⟩ := becomeLeader_eq_ok hr₁
    have hcheck : ∀ r : RaftNode, r.checkConfChanges 0 [{}] = .ok (r, [{}]) := fun _ => rfl
    have hfirst : Acts inp (r.newLeader env (r.resetProgress r.id pr)) r₁ :=
      appendEntry_acts (hcheck _) happ
    have hbcast : Acts inp r₁ r' :=
      .trans (bcastFortify_acts.elim hr₂) (bcastAppend_acts.elim hr')
    exact ⟨⟨pr, hpr, hfirst.trans hbcast⟩, hbcast.accTerm (appendEntry_accTerm happ)⟩
  · exact returns_follower (becomeFollower_state _ _)
  · exact fun hl => nomatch hs.symm.trans hl

theorem stepVoteResp_elects (hs : r.state ≠ .leader) (hm : inp.type = .voteResp) :
    Returns (r.stepType env inp) fun a => a.2.state = .leader → Elected env inp r a.2 := by
  have hother : Returns (pure (none, r) : StepResult) fun a =>
      a.2.state = .leader → Elected env inp r a.2 := fun hl => absurd hl hs
  unfold stepType
  rw [hm]
  dsimp only
  unfold stepRole
  cases hstate : r.state with
  | leader => exact absurd hstate hs
  | follower =>
    unfold stepFollower
    rw [hm]
    exact hother
  | candidate =>
    have hmy : inp.type = r.myVoteRespType := by
      rw [hm, myVoteRespType, hstate]
      rfl
    unfold stepCandidate
    dsimp only
    rw [if_pos hmy]
    -- The votes do not outlast the election.
    refine Sat.bind (P := fun r' => r'.state = .leader → Elected env inp r r') ?_
      fun r' h hl => h hl
    generalize hr₁ : ({ r with votes := r.votes.recordVote inp.src (!inp.reject) } : RaftNode) = r₁
    have hstate₁ : r₁.state = .candidate := hr₁ ▸ hstate
    have htally : Returns (r₁.tally env) fun r' => r'.state = .leader → Elected env inp r₁ r' :=
      tally_elects hstate₁
    refine htally.imp fun r' h hl => ?_
    subst hr₁
    exact ⟨(h hl).acts, (h hl).accTerm⟩
  | preCandidate =>
    have hmy : ¬ inp.type = r.myVoteRespType := by
      rw [hm, myVoteRespType, hstate]
      exact MessageType.noConfusion
    unfold stepCandidate
    dsimp only
    rw [if_neg hmy, hm]
    exact hother

/-- A vote makes a leader of a candidate, if of anything. -/
theorem step_elects (hs : r.state ≠ .leader) (hm : inp.type = .voteResp) :
    Returns (r.step env inp) fun a => a.2.state = .leader → Elected env inp r a.2 := by
  have htype : Returns (r.stepType env inp) fun a => a.2.state = .leader → Elected env inp r a.2 :=
    stepVoteResp_elects hs hm
  unfold step
  refine .ite (fun _ => htype) fun _ => .ite (fun _ => .ite (fun hv => ?_) fun _ => ?_) fun _ =>
    .ite (fun _ => ?_) fun _ => htype
  · rw [hm] at hv
    rcases hv with hv | hv <;> cases hv
  · -- A vote of a higher term makes a follower.
    unfold higherTerm
    rw [hm, if_neg (by rintro (h | ⟨h, -⟩) <;> cases h)]
    rw [if_neg (by decide)]
    refine Sat.bind (becomeFollower_state _ _) fun r₁ h₁ => ?_
    unfold stepType stepRole stepFollower
    rw [hm, h₁]
    exact fun hl => nomatch h₁.symm.trans hl
  · refine Sat.bind (P := fun r' => r'.state = r.state) ?_ fun r' hr' hl => absurd (hr' ▸ hl) hs
    unfold lowerTerm
    rw [hm]
    rw [if_neg (by rintro ⟨-, h | h⟩ <;> cases h), if_neg MessageType.noConfusion]
    exact rfl

end Acts

end RaftNode

end Cockroach.Raft
