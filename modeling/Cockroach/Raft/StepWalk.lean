import Cockroach.Raft.Walk

/-!
# The walk through `Step`

Role changes, handlers and the three step functions, up to `step_walks`,
`tick_walks` and `applyConfChange_walks`. From here on a call is known by its
small steps only.
-/

namespace Cockroach.Raft.RaftNode

open Lib

variable [Codec] {env : Env} {inp : Message} {r : RaftNode}

/-! ## Support for a fortified leader -/

section Support

omit [Codec]

/-- The two assertions on the way, and what a positive answer means. -/
theorem supporting_spec (env : Env) (inp : Message) (r : RaftNode) :
    Sat (r.supportingFortifiedLeader env) (fun p => ∀ a, p = .fortify a → r.Broken env inp a)
      fun b => b = true ↔ r.leadEpoch ≠ 0 ∧ env.supportFor r.lead = (r.leadEpoch, true) := by
  unfold supportingFortifiedLeader
  refine Sat.ite (fun h0 => ?_) fun h0 => ?_
  · simp [h0]
  refine sat_assert_bind (fun hn => ?_) fun _ => ?_
  · rintro a ⟨⟩
    exact ⟨h0, not_not.mp hn⟩
  refine sat_assert_bind (fun hn => ?_) fun _ => ?_
  · rintro a ⟨⟩
    exact ⟨h0, not_le.mp hn⟩
  · change ((env.supportFor r.lead).2 && (env.supportFor r.lead).1 == r.leadEpoch) = true ↔ _
    rw [Bool.and_eq_true, beq_iff_eq, Prod.ext_iff]
    exact ⟨fun h => ⟨h0, h.2, h.1⟩, fun h => ⟨h.2.2, h.2.1⟩⟩

/-- A message of a higher term always withdraws support. -/
theorem deFortify_higher {src : PeerID} {term : Nat} (h : r.term < term) :
    r.deFortify env src term = .ok { r with leadEpoch := 0 } := by
  unfold deFortify
  rw [if_pos (.inl h)]
  rfl

/-- A node whose leader is not supported any more may withdraw its support. -/
theorem deFortify_self (h : r.supportingFortifiedLeader env = .ok false) :
    r.deFortify env r.id r.term = .ok { r with leadEpoch := 0 } := by
  unfold deFortify
  split
  · rfl
  · rw [assertTrue_of ⟨rfl, rfl⟩, h]
    rfl

/-- `reset` to another term asserts that no other leader is supported. -/
theorem reset_spec {t : Nat}
    (hb : r.term ≠ t → r.Supports env → r.Broken env inp .resetWhileSupporting) :
    Sat (r.reset env t) (fun p => ∀ a, p = .fortify a → r.Broken env inp a)
      (· = (r.atTerm t).resetRest env) := by
  unfold reset atTerm
  by_cases ht : r.term = t
  · rw [if_pos ht, if_pos ht]
    exact rfl
  · rw [if_neg ht, if_neg ht]
    refine Sat.bind (supporting_spec env inp r) fun b hsup => ?_
    refine sat_assert_bind (fun hn => ?_) fun _ => rfl
    rintro a ⟨⟩
    rw [not_or, Bool.not_eq_false] at hn
    obtain ⟨h0, hlive⟩ := hsup.mp hn.1
    exact hb ht ⟨h0, hlive, hn.2⟩

theorem increaseUncommittedSize_eq {es : List Entry} {r₁ : RaftNode}
    (h : r.increaseUncommittedSize es = some r₁) : ∃ n, r₁ = { r with uncommittedSize := n } := by
  unfold increaseUncommittedSize at h
  dsimp only at h
  split at h
  · cases h
  · exact ⟨_, (Option.some.inj h).symm⟩

end Support

/-- A check that may fail in the current state. -/
theorem Walks.check {α β : Type} {x : Except Panic α} {P : α → Prop} {f : α → Except Panic β}
    {node : β → RaftNode} {Q : β → Prop}
    (hx : Sat x (fun p => ∀ a, p = .fortify a → r.Broken env inp a) P)
    (hf : ∀ a, x = .ok a → P a → Walks env inp r (f a) node Q) :
    Walks env inp r (x >>= f) node Q := by
  cases hr : x with
  | ok a => exact hf a hr (hx.elim hr)
  | error p => exact fun a ha => ⟨r, .refl, hx.stop hr a ha⟩

/-! ## Role changes -/

theorem becomeFollower_walks {t : Nat} {l : PeerID} (hf : Follow inp r t l)
    (hb : r.term ≠ t → r.Supports env → r.Broken env inp .resetWhileSupporting) :
    Walks env inp r (r.becomeFollower env t l) self (· = r.asFollower env t l) := by
  unfold becomeFollower
  refine .check (reset_spec hb) ?_
  rintro _ - rfl
  exact .ret (.single (.follow hf)) rfl

/-- Becoming a follower without a change of term fails no assertion. -/
theorem becomeFollower_same {l : PeerID} (hf : Follow inp r r.term l) :
    Walks env inp r (r.becomeFollower env r.term l) self (· = r.asFollower env r.term l) :=
  becomeFollower_walks hf fun h => absurd rfl h

theorem becomeCandidate_walks
    (hb : r.Supports env → r.state = .candidate ∨ r.state = .preCandidate) :
    Walks env inp r (r.becomeCandidate env) self (· = r.asCandidate env) := by
  unfold becomeCandidate
  refine .assert rfl fun hs => ?_
  refine .check (reset_spec fun _ hsup => ⟨hsup, .inr (hb hsup)⟩) ?_
  rintro _ - rfl
  exact .ret (.single (.campaign hs)) rfl

theorem becomePreCandidate_walks (hb : ¬ r.Supports env) :
    Walks env inp r (r.becomePreCandidate env) self (· = r.asPreCandidate) := by
  unfold becomePreCandidate
  refine .assert rfl fun hs => ?_
  refine .check (supporting_spec env inp r) fun b _ hsup => ?_
  have hc : b = false ∨ r.lead = r.id := by
    by_contra hn
    rw [not_or, Bool.not_eq_false] at hn
    obtain ⟨h0, hlive⟩ := hsup.mp hn.1
    exact hb ⟨h0, hlive, hn.2⟩
  rw [assertTrue_of hc]
  exact .ret (.single (.preCampaign hs)) rfl

/-! ## The leader's log -/

/-- The node of an append that may be refused. -/
theorem appendEntry_walks (es : List Entry) (hl : r.state = .leader) :
    Walks env inp r (r.appendEntry es) (·.getD r) fun o => (o.getD r).state = .leader := by
  unfold appendEntry
  refine .calm calm_lastEntryID fun last hlast => ?_
  dsimp only
  cases hinc : r.increaseUncommittedSize (stamp r.term (last.index + 1) es) with
  | none => exact .ret .refl hl
  | some r₁ =>
    obtain ⟨n, rfl⟩ := increaseUncommittedSize_eq hinc
    refine .assert rfl fun hv => ?_
    cases happ : r.raftLog.append ⟨r.term, last, stamp r.term (last.index + 1) es⟩ with
    | none => exact .stop rfl
    | some l =>
      dsimp only
      cases hpr : r.trk[r.id]? with
      | none => exact .stop rfl
      | some pr =>
        -- The new progress may come first: the append does not look at it.
        let next := (LogSlice.mk r.term last (stamp r.term (last.index + 1) es)).lastIndex + 1
        have hset : Steps env inp r
            ({ r with uncommittedSize := n }.setProgress r.id { pr with next }) :=
          rest_steps.trans
            (setProgress_steps (r := { r with uncommittedSize := n }) hpr { pr with next } rfl)
        refine .after hset (.bind (sent_walks (.single (.propose hl hlast hv happ))) ?_)
        rintro _ rfl
        exact .ret .refl hl

/-- A node that `Step` commits for. -/
theorem maybeCommit_walks (hl : r.state = .leader) :
    Walks env inp r r.maybeCommit Prod.snd fun a => a.2.state = .leader := by
  unfold maybeCommit
  refine .ite (fun _ => .ret .refl hl) fun hlt => .ite (fun _ => .ret .refl hl) fun hm => ?_
  refine .calm (calm_commitTo _) fun l hcommit => ?_
  rw [Bool.not_eq_true', Bool.not_eq_false] at hm
  exact .ret (.single (.commit hl (not_le.mp hlt) hm hcommit)) hl

/-- A candidate with a majority leads, and appends an empty entry at once. -/
theorem becomeLeader_walks (hs : r.state = .candidate) (hw : r.votes.tallyVotes r.config = .won) :
    Walks env inp r (r.becomeLeader env) self (·.state = .leader) := by
  unfold becomeLeader
  refine .assert rfl fun _ => ?_
  refine .check (reset_spec fun h => absurd rfl h) ?_
  rintro _ - rfl
  have hat : r.atTerm r.term = r := if_pos rfl
  rw [hat]
  refine .after (.single (.lead hs hw)) ?_
  dsimp only
  cases hpr : (r.resetRest env).trk[(r.resetRest env).id]? with
  | none => exact .stop rfl
  | some pr =>
    let pr' := { pr.becomeReplicate with recentActive := true }
    have hset : Steps env inp (r.asLeader env) ((r.asLeader env).setProgress r.id pr') :=
      setProgress_steps (r := r.asLeader env) hpr pr' rfl
    refine .after (hset.trans rest_steps) (.bind (appendEntry_walks [{}] rfl) fun o ho => ?_)
    cases o with
    | none => exact .stop rfl
    | some r' => exact .ret .refl ho

/-! ## Campaigns -/

theorem requestVote_walks (t : CampaignType) (hs : r.state = .candidate) (hv : r.vote = r.id)
    (id : PeerID) :
    Walks env inp r (requestVote t .vote r.term r id) self
      fun r' => r'.state = .candidate ∧ r'.vote = r'.id ∧ r'.term = r.term := by
  unfold requestVote
  have hcore : ∀ r', SameCore r r' → r'.state = .candidate ∧ r'.vote = r'.id ∧ r'.term = r.term :=
    fun r' h => ⟨h.state.trans hs, h.vote.trans (hv.trans h.id.symm), h.term⟩
  refine .ite (fun hid => ?_) fun _ => .calm calm_lastEntryID fun last hlast => ?_
  · subst hid
    exact (send_last (.refl r) (.selfVote hs hv)).imp hcore
  · exact (send_last (.refl r) (.vote hs hlast)).imp hcore

theorem requestPreVote_walks (t : CampaignType) (term : Nat) (id : PeerID) :
    Goes env inp r (requestVote t .preVote term r id) self := by
  unfold requestVote
  refine .ite (fun _ => ?_) fun _ => .calm calm_lastEntryID fun last _ => ?_
  · exact (send_walks (.other (.inr (.inl rfl)) rfl)).any
  · exact (send_walks (.other (.inl rfl) rfl)).any

theorem startCampaign_walks (t : CampaignType)
    (hb : r.Supports env → t ≠ .preElection ∧ (r.state = .candidate ∨ r.state = .preCandidate)) :
    Walks env inp r (r.startCampaign env t) Prod.fst fun a => a.2.1 = .preVote ∨
      a.2.1 = .vote ∧ a.2.2 = a.1.term ∧ a.1.state = .candidate ∧ a.1.vote = a.1.id := by
  have helection : Walks env inp r
      (r.becomeCandidate env >>= fun r => pure (r, MessageType.vote, r.term)) Prod.fst
      fun a => a.2.1 = .preVote ∨
        a.2.1 = .vote ∧ a.2.2 = a.1.term ∧ a.1.state = .candidate ∧ a.1.vote = a.1.id := by
    refine .bind (becomeCandidate_walks fun h => (hb h).2) ?_
    rintro _ rfl
    exact .ret .refl (.inr ⟨rfl, rfl, rfl, rfl⟩)
  unfold startCampaign
  cases t with
  | preElection =>
    refine .bind (becomePreCandidate_walks fun h => (hb h).1 rfl) ?_
    rintro _ rfl
    exact .ret .refl (.inl rfl)
  | election => exact helection
  | transfer => exact helection

/-- The candidate's requests. -/
theorem campaign_walks (t : CampaignType)
    (hb : r.Supports env → t ≠ .preElection ∧ (r.state = .candidate ∨ r.state = .preCandidate)) :
    Goes env inp r (r.campaign env t) self := by
  unfold campaign
  refine .bind (startCampaign_walks t hb) ?_
  rintro ⟨r', voteMsg, term⟩ (hpre | ⟨hvote, hterm, hs, hv⟩)
  · obtain rfl : voteMsg = .preVote := hpre
    exact Walks.foldlM (fun r' _ id => requestPreVote_walks _ _ id) trivial
  · obtain rfl : voteMsg = .vote := hvote
    obtain rfl : term = r'.term := hterm
    refine (Walks.foldlM (I := fun r₁ => r₁.state = .candidate ∧ r₁.vote = r₁.id ∧
      r₁.term = r'.term) (fun r₁ h₁ id => ?_) ⟨hs, hv, rfl⟩).any
    rw [← h₁.2.2]
    exact requestVote_walks t h₁.1 h₁.2.1 id

theorem calm_hasUnappliedConfChanges : Calm r.hasUnappliedConfChanges := by
  unfold hasUnappliedConfChanges
  exact .ite (.pure _) (calm_scanConfChange _ _ _)

theorem hup_walks (t : CampaignType) : Goes env inp r (r.hup env t) self := by
  unfold hup
  refine .ite (fun _ => .stay rfl) fun _ => .ite (fun _ => .stay rfl) fun _ => ?_
  refine .check (supporting_spec env inp r) fun b _ hb => ?_
  refine .ite (fun _ => .stay rfl) fun hno => ?_
  refine .calm calm_hasUnappliedConfChanges fun unapplied _ => .ite (fun _ => .stay rfl)
    fun _ => campaign_walks t fun hsup => ?_
  -- A node that supports another leader does not get here.
  exact absurd ⟨hb.mpr ⟨hsup.1, hsup.2.1⟩, hsup.2.2⟩ hno

/-! ## Handlers of a follower -/

section

variable (hs : r.state = .follower)
include hs

theorem handleAppendEntries_walks (ht : r.AtTerm inp) (hm : inp.type = .app) :
    Goes env inp r (r.handleAppendEntries inp) self := by
  unfold handleAppendEntries
  refine .assert rfl fun _ => ?_
  refine .ite (fun _ => .stay rfl) fun hv => .ite (fun _ => ?_) fun hlt => ?_
  · exact (sent_walks (.single (.ackCommitted hs ht (.inl hm)))).any
  · rw [Bool.not_eq_false] at hv
    refine .calm (calm_maybeAppend _) fun o ho => ?_
    cases o with
    | none => exact (send_walks .appReject).any
    | some l =>
      refine .calm (calm_commitTo _) fun l' hl' => ?_
      exact (sent_walks (.single (.accept hs ht hm hv (not_lt.mp hlt) ho hl'))).any

theorem handleHeartbeat_walks (ht : r.AtTerm inp) (hm : inp.type = .heartbeat) :
    Goes env inp r (r.handleHeartbeat inp) self := by
  unfold handleHeartbeat
  refine .assert rfl fun _ => ?_
  have hcommit : Goes env inp r (r.heartbeatCommit inp) self := by
    unfold heartbeatCommit
    refine .ite (fun ha => .calm (calm_commitTo _) fun l hl => ?_) fun _ => .stay rfl
    exact .ret (.single (.heartbeatCommit hs ht hm ha hl)) trivial
  refine .bind hcommit fun r' _ => ?_
  exact (send_last (.refl r') (.other (.inr (.inr (.inl rfl))) rfl)).any

theorem handleFortify_walks (hl : r.lead = inp.src)
    (ht : r.AtTerm inp) (hm : inp.type = .fortifyLeader) :
    Goes env inp r (r.handleFortify env inp) self := by
  unfold handleFortify
  rw [assertTrue_of hs, assertTrue_of hl]
  have hother : ∀ {r' : RaftNode} {m : Message}, m.type = .fortifyLeaderResp → m.src = None →
      Goes env inp r' (r'.send m) self := by
    intro r' m hm' hsrc
    refine (send_walks (.other ?_ ?_)).any
    · exact .inr (.inr (.inr hm'))
    · simp [stamped, hsrc]
  refine Walks.ite (fun hlive => ?_) fun _ => hother rfl rfl
  refine .after (.single (.fortify (.inl ⟨hs, hl, ht, hm⟩) hlive)) ?_
  exact hother rfl rfl

/-- A follower only takes over the configuration of the snapshot. -/
theorem switchToConfig_follower (cfg : Config) (trk : ProgressMap) :
    ∃ isLearner, r.switchToConfig env cfg trk = .ok { r with config := cfg, trk, isLearner } := by
  have hne : r.state ≠ .leader := by
    rw [hs]
    exact StateType.noConfusion
  unfold switchToConfig
  dsimp only
  rw [if_neg fun h => hne h.2, if_pos (.inl hne)]
  exact ⟨_, rfl⟩

theorem restoreConfig_follower (lastIndex : Nat) (cs : ConfState) :
    Sat (r.restoreConfig env lastIndex cs) (fun p => ∀ a, p ≠ .fortify a) fun r' =>
      ∃ changer cfg trk isLearner, r' = { r with config := cfg, trk, isLearner } ∧
        Confchange.restore changer cs = .ok (cfg, trk) ∧ cs.equivalent cfg.confState = true := by
  unfold restoreConfig
  dsimp only
  split
  · exact fun _ => Panic.noConfusion
  · rename_i cfg trk hc
    obtain ⟨isLearner, hsw⟩ := @switchToConfig_follower _ env r hs cfg trk
    rw [hsw]
    change Sat (assertTrue _ _ >>= fun _ => _) _ _
    refine sat_assert_bind (fun _ _ => Panic.noConfusion) fun he => ?_
    exact ⟨_, cfg, trk, isLearner, rfl, hc, he⟩

/-- What a snapshot does to a follower: nothing, a move of the commit index, or
the replacement of log and configuration. -/
theorem restore_spec (s : TermSnapshot) :
    Sat (r.restore env s) (fun p => ∀ a, p ≠ .fortify a) fun a =>
      a = (false, r) ∨
      (∃ l, a = (false, { r with raftLog := l }) ∧ r.raftLog.committed < s.lastIndex ∧
        r.raftLog.matchTerm s.lastEntryID = true ∧
        r.raftLog.commitTo ⟨s.mark.term, s.mark.index⟩ = .ok l) ∨
      ∃ l changer cfg trk isLearner,
        a = (true, { r with raftLog := l, config := cfg, trk, isLearner }) ∧
        r.raftLog.committed < s.lastIndex ∧ r.raftLog.restore s = some l ∧
        Confchange.restore changer s.snap.metadata.confState = .ok (cfg, trk) ∧
        s.snap.metadata.confState.equivalent cfg.confState = true := by
  unfold restore
  refine Sat.ite (fun _ => .inl rfl) fun hgt => ?_
  refine sat_assert_bind (fun _ _ => Panic.noConfusion)
    fun _ => Sat.ite (fun _ => .inl rfl) fun _ => Sat.ite (fun hmatch => ?_) fun _ => ?_
  · cases hc : r.raftLog.commitTo ⟨s.mark.term, s.mark.index⟩ with
    | error p =>
      have hcalm := calm_commitTo (l := r.raftLog) ⟨s.mark.term, s.mark.index⟩
      rw [hc] at hcalm
      exact hcalm
    | ok l => exact .inr (.inl ⟨l, rfl, not_le.mp hgt, hmatch, rfl⟩)
  · cases hr : r.raftLog.restore s with
    | none => exact .inl rfl
    | some l =>
      refine Sat.bind (restoreConfig_follower (r := { r with raftLog := l }) hs _ _) ?_
      rintro _ ⟨changer, cfg, trk, isLearner, rfl, hc, he⟩
      exact .inr (.inr ⟨l, changer, cfg, trk, isLearner, rfl, not_le.mp hgt, rfl, hc, he⟩)

theorem handleSnapshot_walks (ht : r.AtTerm inp) (hm : inp.type = .snap) :
    Goes env inp r (r.handleSnapshot env inp) self := by
  have hack : ∀ {r' : RaftNode}, r'.state = .follower → r'.AtTerm inp →
      Goes env inp r' (r'.send { dst := inp.src, type := .appResp, index := r'.raftLog.committed,
                                  commit := r'.raftLog.committed }) self := by
    intro r' hs' ht'
    exact (sent_walks (.single (.ackCommitted hs' ht' (.inr hm)))).any
  unfold handleSnapshot
  refine .ite (fun _ => .stay rfl) fun hv => ?_
  rw [Bool.not_eq_false] at hv
  refine .spec (restore_spec hs (msgSnapshot inp)) ?_
  rintro _ (rfl | ⟨l, rfl, hgt, hmatch, hl⟩ |
    ⟨l, changer, cfg, trk, isLearner, rfl, hgt, hl, hc, he⟩)
  · exact hack hs ht
  · exact Walks.after (.single (.snapCommit hs ht hm hv hgt hmatch hl)) (hack hs ht)
  · exact (sent_walks (.single (.snapRestore hs ht hm hv hgt hl hc he))).any

end

/-! ## The leader -/

variable {pr₀ pr : Progress}

/-- A new progress for a peer, and a message to it. -/
theorem setProgress_send_walks {dst : PeerID} (hl : r.state = .leader)
    (hpr : r.trk[dst]? = some pr₀) (hm : pr.matchIdx = pr₀.matchIdx) :
    Goes env inp r (do return (← (r.setProgress dst pr).maybeSendAppend env dst).2) self :=
  .after (setProgress_steps hpr pr hm)
    (.bind (maybeSendAppend_walks dst hl) fun _ _ => .stay rfl)

theorem transferLeader_walks (dst : PeerID) : Goes env inp r (r.transferLeader env dst) self := by
  unfold transferLeader
  refine .assert rfl fun hl => ?_
  refine .bind (send_last (.refl r) (.timeoutNow hl)) fun r' hr' => ?_
  exact (becomeFollower_same (.same (.inr (.inr (hr'.state.trans hl))))).any

theorem checkConfChange_spec (i : Nat) (e : Entry) :
    Sat (r.checkConfChange i e) (fun p => ∀ a, p ≠ .fortify a)
      fun a => ∃ n, a.1 = { r with pendingConfIndex := n } := by
  unfold checkConfChange
  refine Sat.ite (fun _ => ⟨r.pendingConfIndex, rfl⟩) fun _ => ?_
  cases Codec.confChanges e.type e.data with
  | none => exact fun _ => Panic.noConfusion
  | some changes =>
    exact Sat.ite (fun _ => ⟨r.pendingConfIndex, rfl⟩) fun _ => ⟨r.raftLog.lastIndex + i + 1, rfl⟩

theorem checkConfChanges_walks : ∀ (es : List Entry) (i : Nat),
    ∀ {r : RaftNode}, r.state = .leader →
      Walks env inp r (r.checkConfChanges i es) Prod.fst fun a => a.1.state = .leader
  | [], _, _, hl => .ret .refl hl
  | e :: es, i, r, hl => by
    unfold checkConfChanges
    refine .spec (checkConfChange_spec i e) ?_
    rintro ⟨r', e'⟩ ⟨n, rfl⟩
    refine Walks.after (q := { r with pendingConfIndex := n }) rest_steps ?_
    exact .bind (checkConfChanges_walks es (i + 1) hl) fun a ha => .ret .refl ha

theorem leaderProp_walks (m : Message) (hl : r.state = .leader) :
    Goes env inp r (r.leaderProp env m) Prod.snd := by
  unfold leaderProp quietly
  refine .assert rfl fun _ => .ite (fun _ => .stay rfl) fun _ => ?_
  refine .bind (checkConfChanges_walks m.entries 0 hl) fun a ha => ?_
  refine .bind (appendEntry_walks a.2 ha) fun o ho => ?_
  cases o with
  | none => exact .stay rfl
  | some r' => exact .bind (bcastAppend_walks ho) fun _ _ => .stay rfl

theorem leaderCheckQuorum_walks (hl : r.state = .leader) :
    Goes env inp r (r.leaderCheckQuorum env) self := by
  -- Only the activity flags change.
  have hinactive : ∀ r' : RaftNode, Steps env inp r' { r' with trk := r'.trk.map fun id pr =>
      if id = r'.id then pr else { pr with recentActive := false } } := by
    intro r'
    refine .single (.quiet ⟨rfl, rfl, rfl, rfl, rfl, rfl, rfl, rfl, rfl, fun n => ?_⟩ rfl rfl)
    simp only [ProgressMap.ackedIndex, Std.ExtTreeMap.getElem?_map, Option.map_map]
    congr 1
    funext pr
    dsimp only [Function.comp]
    split <;> rfl
  unfold leaderCheckQuorum
  refine .ite (fun _ => .ret (hinactive r) trivial) fun _ => ?_
  exact .bind (becomeFollower_same (.stepDown hl)) fun r' _ => .ret (hinactive r') trivial

section Matches

omit [Codec]

theorem maybeDecrTo_matchIdx (pr : Progress) (rejected hint : Nat) :
    (pr.maybeDecrTo rejected hint).2.matchIdx = pr.matchIdx := by
  unfold Progress.maybeDecrTo
  split_ifs <;> rfl

theorem afterMatch_matchIdx (r : RaftNode) (pr : Progress) (index : Nat) :
    (r.afterMatch pr index).matchIdx = pr.matchIdx := by
  unfold afterMatch
  cases pr.state with
  | probe => rfl
  | snapshot =>
    dsimp only
    split_ifs <;> rfl
  | replicate => rfl

theorem maybeUpdateMatchCommit_matchIdx (pr : Progress) (commit : Nat) :
    (pr.maybeUpdateMatchCommit commit).matchIdx = pr.matchIdx := by
  unfold Progress.maybeUpdateMatchCommit
  split <;> rfl

/-- The message is local, of the current term, or about a pre-vote. -/
def Timely (r : RaftNode) (m : Message) : Prop :=
  r.AtTerm m ∨ m.type = .preVote ∨ m.type = .preVoteResp

theorem Timely.atTerm {m : Message} (h : r.Timely m)
    (hm : m.type ≠ .preVote ∧ m.type ≠ .preVoteResp) : r.AtTerm m :=
  h.resolve_right fun h => h.elim hm.1 hm.2

theorem Timely.of_fromLeader {m : Message} (h : r.Timely m) (hm : fromLeader m.type = true) :
    r.AtTerm m := by
  refine h.atTerm ⟨?_, ?_⟩ <;> rintro h' <;> rw [h'] at hm <;> cases hm

end Matches

section

variable (hl : r.state = .leader)
include hl

theorem leaderAppReject_walks
    (hpr : r.trk[inp.src]? = some pr₀) (hm : pr.matchIdx = pr₀.matchIdx) :
    Goes env inp r (r.leaderAppReject env pr inp) self := by
  unfold leaderAppReject
  dsimp only
  generalize (if inp.logTerm > 0 then (r.raftLog.findConflictByTerm inp.logTerm inp.rejectHint).1
    else inp.rejectHint) = probe
  have hmatch := (maybeDecrTo_matchIdx pr inp.index probe).trans hm
  refine .ite (fun _ => setProgress_send_walks hl hpr ?_)
    fun _ => .ret (setProgress_steps hpr _ hmatch) trivial
  split_ifs
  · exact hmatch
  · exact hmatch

theorem commitAndBcast_walks :
    Walks env inp r (r.commitAndBcast env) self (·.state = .leader) := by
  unfold commitAndBcast
  refine .bind (maybeCommit_walks hl) fun a ha => .ite (fun _ => ?_) fun _ => .ret .refl ha
  exact (bcastAppend_walks ha).imp fun _ h => h.state.trans ha

theorem sendAll_walks (dst : PeerID) :
    Goes env inp r (r.sendAll env dst) self := by
  unfold sendAll
  refine .ite (fun _ => .stay rfl) fun _ => ?_
  exact (sendAppends_walks dst _ hl).any

theorem leaderAppAccept_walks (ht : r.AtTerm inp)
    (hm : inp.type = .appResp ∧ inp.reject = false) (hpr : r.trk[inp.src]? = some pr₀)
    (hmatch : pr.matchIdx = pr₀.matchIdx) :
    Goes env inp r (r.leaderAppAccept env pr inp) self := by
  -- Either the match moves to the acknowledged index, or it stays.
  have hset : ∀ pr' : Progress, pr'.matchIdx = (pr.maybeUpdate inp.index).2.matchIdx →
      Steps env inp r (r.setProgress inp.src pr') := by
    intro pr' hpr'
    unfold Progress.maybeUpdate at hpr'
    split_ifs at hpr' with hle
    · exact setProgress_steps hpr pr' (hpr'.trans hmatch)
    · refine .single (.matched hl ht hm ?_ (k := pr₀.matchIdx) ?_ rfl fun n => ?_)
      · rw [ProgressMap.ackedIndex, hpr]
        rfl
      · rw [← hmatch]
        exact not_le.mp hle
      · change ProgressMap.ackedIndex (r.trk.insert inp.src pr') n = _
        rw [ackedIndex_insert, hpr']
  unfold leaderAppAccept
  refine .ite (fun _ => ?_) fun _ => .ret (hset _ rfl) trivial
  refine .after (hset _ (afterMatch_matchIdx r _ inp.index)) ?_
  refine .bind (commitAndBcast_walks hl) fun r₁ h₁ =>
    .bind (sendAll_walks h₁ inp.src) fun r₂ _ => ?_
  split
  · exact .stop rfl
  · exact .ite (fun _ => transferLeader_walks inp.src) fun _ => .stay rfl

theorem leaderTransfer_walks {pr : Progress}
    (hpr : r.trk[inp.src]? = some pr) :
    Goes env inp r (r.leaderTransfer env pr inp) self := by
  unfold leaderTransfer
  refine .ite (fun _ => .stay rfl) fun _ => .ite (fun _ => .stay rfl) fun _ => ?_
  refine .ite (fun _ => .ret rest_steps trivial) fun _ => ?_
  refine .after (q := { r.abortLeaderTransfer with electionElapsed := 0
                                                   leadTransferee := inp.src }) rest_steps ?_
  exact .ite (fun _ => transferLeader_walks inp.src) fun _ => setProgress_send_walks hl hpr rfl

theorem leaderProgress_walks (ht : r.Timely inp) :
    Goes env inp r (r.leaderProgress env inp) self := by
  unfold leaderProgress
  cases hpr : r.trk[inp.src]? with
  | none => exact .stay rfl
  | some pr =>
    dsimp only
    cases hm : inp.type with
    | appResp =>
      have hat := ht.atTerm (by simp [hm])
      have hmatch := maybeUpdateMatchCommit_matchIdx { pr with recentActive := true } inp.commit
      refine .ite (fun _ => leaderAppReject_walks hl hpr hmatch) fun hrej => ?_
      rw [Bool.not_eq_true] at hrej
      exact leaderAppAccept_walks hl hat ⟨hm, hrej⟩ hpr hmatch
    | heartbeatResp => exact setProgress_send_walks hl hpr rfl
    | snapStatus =>
      refine .ite (fun _ => .stay rfl) fun _ => .ret (setProgress_steps hpr _ ?_) trivial
      split <;> rfl
    | unreachable =>
      refine .ite (fun _ => .ret (setProgress_steps hpr _ rfl) trivial)
        fun _ => .stay rfl
    | transferLeader => exact leaderTransfer_walks hl hpr
    | _ => exact .stay rfl

end

theorem quietly_walks {x : Except Panic RaftNode} {Q : RaftNode → Prop}
    (h : Walks env inp r x self Q) : Goes env inp r (quietly x) Prod.snd :=
  .bind h fun _ _ => .stay rfl

theorem stepLeader_walks (hl : r.state = .leader) (ht : r.Timely inp) :
    Goes env inp r (r.stepLeader env inp) Prod.snd := by
  unfold stepLeader
  split
  · exact quietly_walks (bcastHeartbeat_walks hl)
  · exact quietly_walks (leaderCheckQuorum_walks hl)
  · exact leaderProp_walks inp hl
  · exact .stay rfl
  · unfold handleFortifyResp
    rw [assertTrue_of hl]
    exact quietly_walks (leaderProgress_walks hl ht)
  · exact quietly_walks (leaderProgress_walks hl ht)

/-! ## Candidates and followers -/

section

variable (hs : r.state = .candidate ∨ r.state = .preCandidate)
include hs

theorem tally_walks : Goes env inp r (r.tally env) self := by
  unfold tally
  cases hw : r.votes.tallyVotes r.config with
  | pending => exact .stay rfl
  | lost =>
    refine (becomeFollower_same (.same ?_)).any
    rcases hs with hs | hs
    · exact .inl hs
    · exact .inr (.inl hs)
  | won =>
    refine .ite (fun hpre => campaign_walks _ fun _ => ?_) fun hne => ?_
    · exact ⟨CampaignType.noConfusion, .inr hpre⟩
    · refine .bind (becomeLeader_walks (hs.resolve_right hne) hw) fun r₁ h₁ => ?_
      refine .bind (bcastFortify_walks h₁) fun r₂ h₂ => ?_
      exact (bcastAppend_walks h₂).any

/-- A candidate that hears from the leader of its term follows it. -/
theorem hearAsCandidate_walks {f : RaftNode → Except Panic RaftNode}
    (ht : r.Timely inp)
    (hm : fromLeader inp.type = true)
    (hf : ∀ r' : RaftNode, r'.state = .follower → r'.AtTerm inp → r'.lead = inp.src →
      Goes env inp r' (f r') self) :
    Goes env inp r (quietly (r.becomeFollower env inp.term inp.src >>= f)) Prod.snd := by
  refine quietly_walks (Q := fun _ => True)
    (.bind (becomeFollower_walks (.leader (ht.of_fromLeader hm) hs hm) fun _ hsup =>
      ⟨hsup, .inr hs⟩) ?_)
  rintro _ rfl
  exact hf _ rfl (.inr (atTerm_term r inp.term).symm) rfl

theorem stepCandidate_walks
    (ht : r.Timely inp) : Goes env inp r (r.stepCandidate env inp) Prod.snd := by
  unfold stepCandidate
  refine .ite (fun hm => ?_) fun _ => ?_
  · refine quietly_walks (Q := fun _ => True) (.after (.single ?_) (tally_walks hs))
    unfold myVoteRespType at hm
    by_cases hpre : r.state = .preCandidate
    · rw [if_pos hpre] at hm
      exact .recordPre ⟨hpre, hm⟩
    · rw [if_neg hpre] at hm
      have hat := ht.atTerm (by simp [hm])
      exact .record hat ⟨hs.resolve_right hpre, hm⟩
  · cases hm : inp.type with
    | app =>
      exact hearAsCandidate_walks hs ht (by rw [hm]; rfl) fun r' hs' ht' _ =>
        handleAppendEntries_walks hs' ht' hm
    | heartbeat =>
      exact hearAsCandidate_walks hs ht (by rw [hm]; rfl) fun r' hs' ht' _ =>
        handleHeartbeat_walks hs' ht' hm
    | snap =>
      exact hearAsCandidate_walks hs ht (by rw [hm]; rfl) fun r' hs' ht' _ =>
        handleSnapshot_walks hs' ht' hm
    | fortifyLeader =>
      exact hearAsCandidate_walks hs ht (by rw [hm]; rfl) fun r' hs' ht' hlead =>
        handleFortify_walks hs' hlead ht' hm
    | _ => exact .stay rfl

end

section

variable (hs : r.state = .follower)
include hs

/-- A follower that hears from the leader of its term goes on with the message. -/
theorem hearAsFollower_walks {x : Except Panic RaftNode}
    (ht : r.Timely inp) (hm : fromLeader inp.type = true)
    (hx : r.AtTerm inp → Goes env inp (r.hearLeader inp) x self) :
    Goes env inp r (quietly x) Prod.snd := by
  have hat := ht.of_fromLeader hm
  exact quietly_walks (.after (.trans (.single (.hear hs hat hm)) rest_steps) (hx hat))

theorem forgetLeader_walks : Goes env inp r (r.forgetLeader env inp) self := by
  unfold forgetLeader
  refine .ite (fun _ => .stay rfl) fun _ => ?_
  refine .check (supporting_spec env inp r) fun _ _ _ =>
    .ite (fun _ => .stay rfl) fun _ => ?_
  exact .ret (.single (.forget hs)) trivial

theorem stepFollower_walks (ht : r.Timely inp) :
    Goes env inp r (r.stepFollower env inp) Prod.snd := by
  unfold stepFollower
  cases hm : inp.type with
  | prop =>
    refine .ite (fun _ => .stay rfl) fun _ => quietly_walks (send_walks ?_)
    rw [← hm]
    exact .forward hs (.inl hm)
  | transferLeader =>
    refine .ite (fun _ => .stay rfl) fun _ => quietly_walks (send_walks ?_)
    rw [← hm]
    exact .forward hs (.inr hm)
  | app =>
    exact hearAsFollower_walks hs ht (by rw [hm]; rfl) fun ht' =>
      handleAppendEntries_walks hs ht' hm
  | heartbeat =>
    exact hearAsFollower_walks hs ht (by rw [hm]; rfl) fun ht' => handleHeartbeat_walks hs ht' hm
  | snap =>
    exact hearAsFollower_walks hs ht (by rw [hm]; rfl) fun ht' => handleSnapshot_walks hs ht' hm
  | fortifyLeader =>
    exact hearAsFollower_walks hs ht (by rw [hm]; rfl) fun ht' => handleFortify_walks hs rfl ht' hm
  | forgetLeader => exact quietly_walks (forgetLeader_walks hs)
  | timeoutNow => exact quietly_walks (.after (.single .deFortify) (hup_walks _))
  | _ => exact .stay rfl

end

theorem stepRole_walks (ht : r.Timely inp) : Goes env inp r (r.stepRole env inp) Prod.snd := by
  unfold stepRole
  cases hs : r.state with
  | leader => exact stepLeader_walks hs ht
  | follower => exact stepFollower_walks hs ht
  | candidate => exact stepCandidate_walks (.inl hs) ht
  | preCandidate => exact stepCandidate_walks (.inr hs) ht

/-! ## Storage responses -/

theorem autoLeave_walks : Goes env inp r (r.autoLeave env) self := by
  unfold autoLeave
  refine .ite (fun h => ?_) fun _ => .stay rfl
  exact .bind (leaderProp_walks leaveJointMsg h.2.2) fun _ _ => .stay rfl

theorem ackSnapshot_walks (hm : inp.type = .storageAppendResp) :
    Goes env inp r (r.ackSnapshot env inp.snapshot) self := by
  unfold ackSnapshot
  cases hs : inp.snapshot with
  | none => exact .stay rfl
  | some s =>
    refine .calm (calm_appliedTo _ _) fun l hl => ?_
    exact .after (.single (.ackSnapshot hm hs hl)) autoLeave_walks

theorem storageAppendResp_walks (hm : inp.type = .storageAppendResp) :
    Goes env inp r (r.storageAppendResp env inp) self := by
  unfold storageAppendResp
  refine .bind (ackSnapshot_walks hm) fun r' _ => .ite (fun hi => ?_) fun _ => .stay rfl
  exact .calm (calm_stableTo _) fun l hl => .ret (.single (.ackEntries hm hi hl)) trivial

theorem storageApplyResp_walks (hm : inp.type = .storageApplyResp) :
    Goes env inp r (r.storageApplyResp env inp) self := by
  unfold storageApplyResp
  cases he : inp.entries.getLast? with
  | none => exact .stay rfl
  | some e =>
    have happlied : Goes env inp r (r.appliedTo env e.index (entsSize inp.entries)) self :=
      .calm (calm_appliedTo _ _) fun l hl =>
        .after (.single (.ackApply hm he hl)) autoLeave_walks
    exact .bind happlied fun r' _ => .ret rest_steps trivial

/-! ## `Step` -/

theorem handleVote_walks (ht : r.Timely inp) (hm : inp.type = .vote ∨ inp.type = .preVote) :
    Goes env inp r (r.handleVote inp) self := by
  unfold handleVote
  refine .calm (calm_isUpToDate _) fun upToDate hup => ?_
  rcases hm with hm | hm
  · have hat := ht.atTerm (by simp [hm])
    rw [hm]
    refine .ite (fun hc => ?_) fun _ => (send_walks .voteReject).any
    obtain ⟨hcan, rfl⟩ := hc
    -- A vote for term zero cannot be sent, so the request is of the current term.
    refine .spec ((send_spec r _).and (send_vote_term r _ rfl)) ?_
    rintro _ ⟨rfl, hne⟩
    have hterm : inp.term = r.term := hat.resolve_left hne
    have hv : r.vote = inp.src ∨ r.vote = None ∧ r.lead = None := by
      rcases hcan with h | h | h
      · exact .inl h
      · exact .inr h
      · exact MessageType.noConfusion h.1
    rw [if_pos rfl, hterm]
    exact ⟨.trans (.single (.grant hterm hm hv hup)) rest_steps, trivial⟩
  · rw [hm]
    refine .ite (fun _ => ?_) fun _ =>
      (send_walks (.other (.inr (.inl rfl)) rfl)).any
    refine .bind (send_last (.refl r) (.other (.inr (.inl rfl)) rfl)) fun r' _ => ?_
    exact .stay rfl

theorem leaveLeader_walks (hlt : r.term < inp.term) :
    Walks env inp r (r.leaveLeader env inp) (·.getD r)
      fun o => ∀ r' ∈ o, r' = { r with leadEpoch := 0 } := by
  unfold leaveLeader
  dsimp only
  refine .check (supporting_spec env inp r) fun _ _ _ => .ite (fun _ => ?_) fun _ => ?_
  · exact .ret .refl fun r' h => by cases h
  · rw [deFortify_higher hlt]
    exact .ret (.single .deFortify) fun r' h => (Option.some.inj h).symm

/-- A message of a higher term is dealt with before its content: the node is at
its term then, unless it is about a pre-vote. -/
theorem higherTerm_walks (hlt : r.term < inp.term) (hv : inp.type = .vote → r.leadEpoch = 0) :
    Walks env inp r (r.higherTerm env inp) self (·.Timely inp) := by
  unfold higherTerm
  refine .ite (fun h => .ret .refl ?_) fun hpre => ?_
  · rcases h with h | h
    · exact .inr (.inl h)
    · exact .inr (.inr h.1)
  · have hraise : r.Raises inp := ⟨hlt, fun h => hpre (.inl h), fun h => hpre (.inr h)⟩
    refine .ite (fun hl => ?_) fun hl => ?_
    · rw [deFortify_higher hlt]
      have hfollow : Follow inp { r with leadEpoch := 0 } inp.term inp.src := by
        have := Follow.higher (r := { r with leadEpoch := 0 }) ⟨hlt, hraise.2, hraise.3⟩
        rwa [if_pos hl] at this
      refine .after (.single .deFortify) ((becomeFollower_walks hfollow ?_).imp ?_)
      · intro _ hsup
        exact absurd rfl hsup.1
      · rintro _ rfl
        exact .inl (.inr (atTerm_term _ _).symm)
    · have hfollow := Follow.higher hraise
      rw [if_neg hl] at hfollow
      rw [Bool.not_eq_true] at hl
      refine (becomeFollower_walks hfollow fun _ hsup => ?_).imp ?_
      · exact ⟨hsup, .inl ⟨hraise, hl, fun h => hsup.1 (hv h)⟩⟩
      · rintro _ rfl
        exact .inl (.inr (atTerm_term _ _).symm)

theorem lowerTerm_walks : Goes env inp r (r.lowerTerm inp) self := by
  unfold lowerTerm
  refine .ite (fun _ => (send_walks .appStale).any) fun _ => ?_
  refine .ite (fun _ => ?_) fun _ => .stay rfl
  exact (send_walks (.other (.inr (.inl rfl)) rfl)).any

theorem stepType_walks (ht : r.Timely inp) : Goes env inp r (r.stepType env inp) Prod.snd := by
  unfold stepType
  split
  · exact quietly_walks (hup_walks _)
  · exact quietly_walks (storageAppendResp_walks ‹_›)
  · exact quietly_walks (storageApplyResp_walks ‹_›)
  · exact quietly_walks (handleVote_walks ht (.inl ‹_›))
  · exact quietly_walks (handleVote_walks ht (.inr ‹_›))
  · exact stepRole_walks ht

/-- `Step` takes small steps. -/
theorem step_walks (env : Env) (r : RaftNode) (m : Message) :
    Goes env m r (r.step env m) Prod.snd := by
  unfold step
  refine .ite (fun h0 => stepType_walks (.inl (.inl h0))) fun _ =>
    .ite (fun hgt => ?_) fun hle => ?_
  · refine .ite (fun _ => ?_) fun hno => ?_
    · refine .bind (leaveLeader_walks hgt) fun o ho => ?_
      cases o with
      | none => exact .stay rfl
      | some r' =>
        obtain rfl := ho r' rfl
        exact .bind (higherTerm_walks hgt fun _ => rfl) fun r' hr' => stepType_walks hr'
    · exact .bind (higherTerm_walks hgt fun h => absurd (.inl h) hno) fun r' hr' =>
        stepType_walks hr'
  · refine .ite (fun _ => quietly_walks lowerTerm_walks) fun hge => ?_
    exact stepType_walks (.inl (.inr (le_antisymm (not_lt.mp hle) (not_lt.mp hge))))

/-! ## Ticks and configuration changes -/

/-- The local messages of the timers go straight to their handlers. -/
theorem stepHup_walks (id : PeerID) :
    Goes env inp r (do return (← r.step env { src := id, type := .hup }).2) self := by
  unfold step
  rw [if_pos rfl]
  exact .bind (quietly_walks (hup_walks _)) fun _ _ => .stay rfl

theorem stepLeader_local {m : Message} (hl : r.state = .leader) (h : m.term = 0)
    (hm : m.type = .checkQuorum ∨ m.type = .beat) : r.step env m = r.stepLeader env m := by
  unfold step
  rw [if_pos h]
  unfold stepType stepRole
  rcases hm with hm | hm <;> rw [hm, hl]

theorem stepCheckQuorum_walks (hl : r.state = .leader) (id : PeerID) :
    Goes env inp r (r.step env { src := id, type := .checkQuorum }) Prod.snd := by
  rw [stepLeader_local hl rfl (.inl rfl)]
  exact quietly_walks (leaderCheckQuorum_walks hl)

theorem stepBeat_walks (hl : r.state = .leader) (id : PeerID) :
    Goes env inp r (r.step env { src := id, type := .beat }) Prod.snd := by
  rw [stepLeader_local hl rfl (.inr rfl)]
  exact quietly_walks (bcastHeartbeat_walks hl)

theorem tickFortified_walks :
    Walks env inp r (r.tickFortified env) (·.getD r) fun o => ∀ r' ∈ o, r'.state = r.state := by
  unfold tickFortified
  refine .ite (fun _ => .ret .refl ?_) fun _ => .check (supporting_spec env inp r) fun b hb _ => ?_
  · rintro r' ⟨⟩
    rfl
  refine .ite (fun _ => .ret .refl ?_) fun hno => ?_
  · rintro r' ⟨⟩
  · rw [Bool.not_eq_true] at hno
    subst hno
    rw [deFortify_self hb]
    refine .ret (.trans (.single .deFortify) ?_) ?_
    · change Steps env inp _ (if _ then _ else _)
      split
      · exact rest_steps
      · exact .refl
    · rintro r' ⟨⟩
      split <;> rfl

theorem tickElection_walks : Goes env inp r (r.tickElection env) self := by
  unfold tickElection
  refine .assert rfl fun _ => .bind tickFortified_walks fun o _ => ?_
  cases o with
  | none => exact .ret rest_steps trivial
  | some r' =>
    refine .ite (fun _ => ?_) fun _ => .ret rest_steps trivial
    exact .after (q := { r' with electionElapsed := 0 }) rest_steps (stepHup_walks r'.id)

theorem tickCheckQuorum_walks (hl : r.state = .leader) :
    Walks env inp r (r.tickCheckQuorum env) Prod.snd fun a => a.1 = true → a.2.state = .leader := by
  unfold tickCheckQuorum
  refine .ite (fun _ => .ret .refl fun _ => hl) fun _ => .ite (fun _ => ?_) fun _ => ?_
  · refine .after (q := { r with electionElapsed := 0 }) rest_steps ?_
    refine .bind (stepCheckQuorum_walks (r := { r with electionElapsed := 0 }) hl r.id)
      fun a _ => .ite (fun h => ?_) fun _ => ?_
    · exact .ret rest_steps fun _ => h
    · exact .ret .refl fun h => absurd h Bool.false_ne_true
  · exact .ret rest_steps fun _ => hl

theorem tickHeartbeat_walks : Goes env inp r (r.tickHeartbeat env) self := by
  unfold tickHeartbeat
  refine .assert rfl fun hl => ?_
  refine .after (q := { r with heartbeatElapsed := r.heartbeatElapsed + 1
                               electionElapsed := r.electionElapsed + 1 }) rest_steps ?_
  refine .bind (tickCheckQuorum_walks hl) fun a ha =>
    .ite (fun hc => ?_) fun _ => .stay rfl
  have hl' := ha hc.1
  refine .after (q := { a.2 with heartbeatElapsed := 0 }) rest_steps ?_
  exact .bind (stepBeat_walks (r := { a.2 with heartbeatElapsed := 0 }) hl' a.2.id)
    fun _ _ => .stay rfl

/-- `Tick` takes small steps, about no message at all. -/
theorem tick_walks (env : Env) (inp : Message) (r : RaftNode) :
    Goes env inp r (r.tick env) self := by
  unfold tick
  exact .ite (fun _ => tickHeartbeat_walks) fun _ => tickElection_walks

theorem leadNewConfig_walks (hl : r.state = .leader) :
    Goes env inp r (r.leadNewConfig env) self := by
  unfold leadNewConfig
  refine .bind (maybeCommit_walks hl) fun a ha => .bind (bcastAppend_walks ha) fun r' _ => ?_
  refine .ret ?_ trivial
  change Steps env inp _ (if _ then _ else _)
  split
  · exact rest_steps
  · exact .refl

/-- A leader that is not part of the new configuration may step down. -/
theorem switchToConfig_walks (cfg : Config) (trk : ProgressMap) :
    ∃ isLearner, Goes env inp { r with config := cfg, trk, isLearner }
      (r.switchToConfig env cfg trk) self := by
  unfold switchToConfig
  dsimp only
  refine ⟨_, .ite (fun h => .ite (fun _ => ?_) fun _ => .stay rfl) fun _ =>
    .ite (fun _ => .stay rfl) fun h => leadNewConfig_walks ?_⟩
  · refine (becomeFollower_same (.same ?_)).any
    exact .inr (.inr h.2)
  · exact not_not.mp fun hne => h (.inl hne)

/-- `ApplyConfChange` takes small steps once the configuration is switched. -/
theorem applyConfChange_walks (env : Env) (inp : Message) (r : RaftNode) (cc : ConfChangeV2) :
    r.applyConfChange env cc = .error .applyConfChange ∨
    ∃ cfg trk isLearner, Goes env inp { r with config := cfg, trk, isLearner }
      (r.applyConfChange env cc) self := by
  unfold applyConfChange
  dsimp only
  split
  · exact .inl rfl
  · rename_i cfg trk _
    exact .inr ⟨cfg, trk, switchToConfig_walks cfg trk⟩

end Cockroach.Raft.RaftNode
