import Cockroach.Raft.Network

/-!
# Election safety

A node votes once a term, and not before the vote is durable does anybody hear
of it. So the votes a member has released never contradict one another, whatever
crashes come between them, and two quorums cannot have elected two leaders of
one term (`election_safety`).

The argument has two layers. `Voting` is what one call keeps of a node, given
what is true of the messages it can hear (`Heard`); it is proved for each small
step of a node and so for every call. `Ballot` is what a member keeps: `Voting`
for its node, and that each version of its storage that a crash could leave it
with stands by the votes released up to then.
-/

namespace Cockroach.Raft

open Lib Lib.WriteQueue List

/-- A vote that was granted. -/
def IsGrant (m : Message) : Prop := m.type = .voteResp ∧ m.reject = false

/-- A node at `term` that voted for `vote` stands by the vote that `m` grants. -/
def StandsBy (term : Nat) (vote : PeerID) (m : Message) : Prop :=
  m.term < term ∨ m.term = term ∧ m.dst = vote

/-- What surrounds a node in a cluster with the configuration `cs`. -/
structure Around where
  id : PeerID
  cs : ConfState
  /-- The responses the node has handed out before. -/
  past : List Message
  /-- The hard state it has handed out last. -/
  saved : HardState
  /-- `granted v c t`: the vote of `v` for `c` at term `t` has been released. -/
  granted : PeerID → PeerID → Nat → Prop

variable {m : Message}

namespace Around

/-- A quorum has released its votes for `c`. -/
def Elected (a : Around) (c : PeerID) (t : Nat) : Prop :=
  ∃ q, IsMajority a.cs.voters.toFinset q ∧ ∀ v ∈ q, a.granted v c t

/-- What is true of the messages a member sends. -/
structure Says (a : Around) (m : Message) : Prop where
  vote : m.type = .vote → m.src = a.id ∧ 0 < m.term
  leader : isMsgFromLeader m.type = true → m.src = a.id ∧ 0 < m.term ∧ a.Elected a.id m.term
  snap : m.type = .snap → ∀ s ∈ m.snapshot, s.metadata.confState = a.cs

/-- What is true of the messages a member hears. -/
structure Heard (a : Around) (m : Message) : Prop where
  vote : m.type = .vote → m.src ≠ None ∧ 0 < m.term
  leader : isMsgFromLeader m.type = true → m.src ≠ None ∧ 0 < m.term ∧ a.Elected m.src m.term
  snap : m.type = .snap → ∀ s ∈ m.snapshot, s.metadata.confState = a.cs
  grant : IsGrant m → 0 < m.term ∧ a.granted m.src a.id m.term

/-- Messages of other types are nobody's concern here. -/
theorem says_of_type {a : Around} (h : m.type ≠ .vote)
    (h' : isMsgFromLeader m.type = false) : a.Says m where
  vote ht := absurd ht h
  leader ht := by
    rw [h'] at ht
    cases ht
  snap ht := by
    rw [ht] at h'
    cases h'

end Around

/-- What every call keeps of a node, as far as votes are concerned. -/
structure Voting (a : Around) (r : RaftNode) : Prop where
  id : r.id = a.id
  id_ne : a.id ≠ None
  config : a.cs.equivalent r.config.confState = true
  positive : r.state = .candidate ∨ r.state = .leader → 0 < r.term
  later : a.saved.term < r.term ∨
    a.saved.term = r.term ∧ (a.saved.vote = None ∨ a.saved.vote = r.vote)
  backed : ∀ m ∈ a.past ++ r.msgsAfterAppend, IsGrant m →
    m.src = a.id ∧ 0 < m.term ∧ m.dst ≠ None ∧ StandsBy r.term r.vote m
  unique : ∀ m ∈ a.past ++ r.msgsAfterAppend, ∀ m' ∈ a.past ++ r.msgsAfterAppend,
    IsGrant m → IsGrant m' → m.term = m'.term → m.dst = m'.dst
  msgs : ∀ m ∈ r.msgs, a.Says m ∧ RaftNode.sentAfterAppend m.type = false
  after : ∀ m ∈ r.msgsAfterAppend, RaftNode.sentAfterAppend m.type = true
  pending : ∀ s ∈ r.raftLog.unstable.snapshot, s.metadata.confState = a.cs
  storage : r.raftLog.storage.snapshot.metadata.confState = a.cs
  tally : r.state = .candidate → ∀ v, r.votes[v]? = some true → a.granted v a.id r.term
  leads : r.state = .leader → a.Elected a.id r.term

/-- The voters of a configuration that `cs` describes. -/
theorem incoming_eq {cs : ConfState} {c : Config} (h : cs.equivalent c.confState = true) :
    c.voters.incoming = cs.voters.toFinset := by
  simp only [ConfState.equivalent, Bool.and_eq_true, beq_iff_eq] at h
  have hperm : cs.voters.Perm c.confState.voters := by
    refine (perm_insertionSort (· ≤ ·) _).symm.trans ?_
    rw [h.1.1.1.1]
    exact perm_insertionSort _ _
  ext v
  rw [mem_toFinset, hperm.mem_iff]
  exact mem_ascending.symm

namespace RaftNode

theorem isMsgFromLeader_of {t : MessageType} (h : fromLeader t = true) :
    isMsgFromLeader t = true := by
  cases t <;> first | rfl | cases h

end RaftNode

variable {l : RaftLog}

namespace Voting

open RaftNode

variable {a : Around} {r r' : RaftNode}

section

variable (h : Voting a r)
include h

/-- The term may go up and the role may change; nothing is sent. -/
theorem turn (hid : r'.id = r.id) (hcfg : r'.config = r.config)
    (hterm : r'.term = r.term ∧ r'.vote = r.vote ∨ r.term < r'.term)
    (hpos : r'.state = .candidate ∨ r'.state = .leader → 0 < r'.term)
    (hmsgs : r'.msgs = r.msgs) (hafter : r'.msgsAfterAppend = r.msgsAfterAppend)
    (hpending : ∀ s ∈ r'.raftLog.unstable.snapshot, s.metadata.confState = a.cs)
    (hstorage : r'.raftLog.storage.snapshot.metadata.confState = a.cs)
    (htally : r'.state = .candidate → ∀ v, r'.votes[v]? = some true → a.granted v a.id r'.term)
    (hleads : r'.state = .leader → a.Elected a.id r'.term) : Voting a r' where
  id := hid.trans h.id
  id_ne := h.id_ne
  config := hcfg ▸ h.config
  positive := hpos
  later := by
    rcases hterm with ⟨ht, hv⟩ | hlt
    · rw [ht, hv]
      exact h.later
    · rcases h.later with hl | ⟨heq, -⟩
      · exact .inl (hl.trans hlt)
      · exact .inl (heq ▸ hlt)
  backed m hm hg := by
    rw [hafter] at hm
    obtain ⟨hsrc, hpos', hdst, hb⟩ := h.backed m hm hg
    refine ⟨hsrc, hpos', hdst, ?_⟩
    rcases hterm with ⟨ht, hv⟩ | hlt
    · rw [ht, hv]
      exact hb
    · rcases hb with hl | ⟨heq, -⟩
      · exact .inl (hl.trans hlt)
      · exact .inl (heq ▸ hlt)
  unique := hafter ▸ h.unique
  msgs := hmsgs ▸ h.msgs
  after := hafter ▸ h.after
  pending := hpending
  storage := hstorage
  tally := htally
  leads := hleads

/-- A vote is granted: the first of the term, or one that was granted before. -/
theorem grant {c : PeerID} (hc : c ≠ None) (hpos : 0 < r.term)
    (hv : r.vote = c ∨ r.vote = None) (hm : IsGrant m) (hsrc : m.src = r.id)
    (hdst : m.dst = c) (hterm : m.term = r.term) : Voting a ({ r with vote := c }.post m) := by
  have hsent : sentAfterAppend m.type = true := by
    rw [hm.1]
    rfl
  rw [RaftNode.post, if_pos hsent]
  have hstand : ∀ m' ∈ a.past ++ r.msgsAfterAppend, IsGrant m' →
      StandsBy r.term c m' := by
    intro m' hm' hg'
    obtain ⟨-, -, hne, hb⟩ := h.backed m' hm' hg'
    rcases hb with hlt | ⟨heq, hd⟩
    · exact .inl hlt
    · rcases hv with hv | hv
      · exact .inr ⟨heq, hd.trans hv⟩
      · exact absurd (hd.trans hv) hne
  have hnew : ∀ m' ∈ a.past ++ (r.msgsAfterAppend ++ [m]),
      m' ∈ a.past ++ r.msgsAfterAppend ∨ m' = m := by
    intro m' hm'
    rw [← append_assoc] at hm'
    exact (mem_append.mp hm').imp_right mem_singleton.mp
  exact { h with
    positive := fun _ => hpos
    later := by
      rcases h.later with hl | ⟨heq, hn | hs⟩
      · exact .inl hl
      · exact .inr ⟨heq, .inl hn⟩
      · rcases hv with hv | hv
        · exact .inr ⟨heq, .inr (hs.trans hv)⟩
        · exact .inr ⟨heq, .inl (hs.trans hv)⟩
    backed := by
      intro m' hm' hg'
      rcases hnew m' hm' with h' | rfl
      · obtain ⟨hs, hp, hne, -⟩ := h.backed m' h' hg'
        exact ⟨hs, hp, hne, hstand m' h' hg'⟩
      · exact ⟨hsrc.trans h.id, hterm ▸ hpos, hdst ▸ hc, .inr ⟨hterm, hdst⟩⟩
    unique := by
      have hone : ∀ m' ∈ a.past ++ r.msgsAfterAppend, IsGrant m' → m'.term = m.term →
          m'.dst = m.dst := by
        intro m' hm' hg' ht
        rcases hstand m' hm' hg' with hlt | ⟨-, hd⟩
        · omega
        · exact hd.trans hdst.symm
      intro m₁ h₁ m₂ h₂ hg₁ hg₂ ht
      rcases hnew m₁ h₁ with h₁' | rfl
      · rcases hnew m₂ h₂ with h₂' | rfl
        · exact h.unique m₁ h₁' m₂ h₂' hg₁ hg₂ ht
        · exact hone m₁ h₁' hg₁ ht
      · rcases hnew m₂ h₂ with h₂' | rfl
        · exact (hone m₂ h₂' hg₂ ht.symm).symm
        · rfl
    after := forall_mem_append.mpr ⟨h.after, forall_mem_singleton.mpr hsent⟩ }

/-- A node that stays where it is may post anything but a granted vote. -/
theorem post (hm : sentAfterAppend m.type = false → a.Says m)
    (hg : ¬ IsGrant m) : Voting a (r.post m) := by
  unfold RaftNode.post
  split_ifs with hsent
  · have hold : ∀ m' ∈ a.past ++ (r.msgsAfterAppend ++ [m]), IsGrant m' →
        m' ∈ a.past ++ r.msgsAfterAppend := by
      intro m' hm' hg'
      rw [← append_assoc] at hm'
      rcases mem_append.mp hm' with h' | h'
      · exact h'
      · exact absurd (mem_singleton.mp h' ▸ hg') hg
    exact { h with
      backed := fun m' hm' hg' => h.backed m' (hold m' hm' hg') hg'
      unique := fun m₁ h₁ m₂ h₂ hg₁ hg₂ =>
        h.unique m₁ (hold m₁ h₁ hg₁) m₂ (hold m₂ h₂ hg₂) hg₁ hg₂
      after := forall_mem_append.mpr ⟨h.after, forall_mem_singleton.mpr hsent⟩ }
  · rw [Bool.not_eq_true] at hsent
    exact { h with
      msgs := forall_mem_append.mpr ⟨h.msgs, forall_mem_singleton.mpr ⟨hm hsent, hsent⟩⟩ }

theorem ack (ht : m.type = .appResp) : Voting a (r.post m) := by
  refine h.post (fun hs => ?_) fun hg => ?_
  · rw [ht] at hs
    cases hs
  · rw [IsGrant, ht] at hg
    cases hg.1

/-- A Ready empties the outgoing queues; what they held is in the past then. -/
theorem handOut {b : Around} (hid : b.id = a.id) (hcs : b.cs = a.cs)
    (hg : b.granted = a.granted) (hsaved : b.saved.term = r.term ∧ b.saved.vote = r.vote)
    (hpast : ∀ m ∈ b.past, IsGrant m → m ∈ a.past ++ r.msgsAfterAppend)
    (hst : l.storage = r.raftLog.storage)
    (hsnap : l.unstable.snapshot = r.raftLog.unstable.snapshot) :
    Voting b { r with msgs := [], msgsAfterAppend := [], raftLog := l } where
  id := h.id.trans hid.symm
  id_ne := hid ▸ h.id_ne
  config := hcs ▸ h.config
  positive := h.positive
  later := .inr ⟨hsaved.1, .inr hsaved.2⟩
  backed m hm hgr := by
    rw [append_nil] at hm
    rw [hid]
    exact h.backed m (hpast m hm hgr) hgr
  unique m hm m' hm' hgr hgr' := by
    rw [append_nil] at hm hm'
    exact h.unique m (hpast m hm hgr) m' (hpast m' hm' hgr') hgr hgr'
  msgs m hm := absurd hm not_mem_nil
  after m hm := absurd hm not_mem_nil
  pending := by
    rw [hcs]
    show ∀ s ∈ l.unstable.snapshot, _
    rw [hsnap]
    exact h.pending
  storage := by
    rw [hcs]
    show l.storage.snapshot.metadata.confState = _
    rw [hst]
    exact h.storage
  tally hs v hv := by
    rw [hg, hid]
    exact h.tally hs v hv
  leads hs := by
    obtain ⟨q, hq, hv⟩ := h.leads hs
    refine ⟨q, hcs ▸ hq, fun v hvq => ?_⟩
    rw [hg, hid]
    exact hv v hvq

/-- A won count is a quorum of released votes. -/
theorem elected (hs : r.state = .candidate)
    (hw : r.votes.tallyVotes r.config = .won) (hne : a.cs.voters ≠ []) :
    a.Elected a.id r.term := by
  have hwins := JointConfig.wins_of_voteResult (s := r.config.voters.ids.filter
    fun v => r.votes[v]? = some true) hw fun v hv hyes => Finset.mem_filter.mpr ⟨hv, hyes⟩
  have hvoters := incoming_eq h.config
  have hempty : r.config.voters.incoming ≠ ∅ := by
    rw [hvoters, Ne, toFinset_eq_empty_iff]
    exact hne
  rw [JointConfig.wins_iff] at hwins
  refine ⟨_, hvoters ▸ hwins.1.resolve_left hempty, fun v hv => ?_⟩
  exact h.tally hs v (Finset.mem_filter.mp hv).2

end

/-- The term of a new follower. -/
theorem follow_term {inp : Message} (hin : a.Heard inp) {t : Nat} {l : PeerID}
    (hf : Follow inp r t l) :
    t = r.term ∨ r.term < t := by
  cases hf with
  | higher hr => exact .inr hr.higher
  | leader ht hs hm =>
    have hpos := (hin.leader (isMsgFromLeader_of hm)).2.1
    rcases ht with ht | ht
    · omega
    · exact .inl ht
  | same => exact .inl rfl
  | stepDown => exact .inl rfl

section Calls

variable [Codec] {env : Env} {inp : Message}

/-- A pending snapshot is the old one or that of the message. -/
theorem snapshots (h : Voting a r) (hin : a.Heard inp) (hl : LogMoves inp r.raftLog l) :
    (∀ s ∈ l.unstable.snapshot, s.metadata.confState = a.cs) ∧
      l.storage.snapshot.metadata.confState = a.cs := by
  induction hl with
  | refl => exact ⟨h.pending, h.storage⟩
  | tail _ hmove ih =>
    obtain ⟨hst, hsnap⟩ := hmove.frame
    refine ⟨fun s hs => ?_, hst ▸ ih.2⟩
    rcases hsnap s hs with hs | ⟨hm, hsome⟩
    · exact ih.1 s hs
    · exact hin.snap hm s hsome

/-- Whatever a node may send says nothing wrong. -/
theorem send (h : Voting a r) (hm : MaySend inp r m) : Voting a (r.post m) := by
  have hlead : r.state = .leader → r.id = a.id ∧ 0 < r.term ∧ a.Elected a.id r.term :=
    fun hl => ⟨h.id, h.positive (.inr hl), h.leads hl⟩
  cases hm with
  | app hl ht he | heartbeat hl hc =>
    exact h.post (fun _ => ⟨nofun, fun _ => hlead hl, nofun⟩) nofun
  | snap hl hne =>
    refine h.post (fun _ => ⟨nofun, fun _ => hlead hl, fun _ s hs => ?_⟩) nofun
    cases hs
    unfold RaftLog.snapshot
    cases hp : r.raftLog.unstable.snapshot with
    | none => exact h.storage
    | some s => exact h.pending s hp
  | vote hs hl =>
    exact h.post (fun _ => ⟨fun _ => ⟨h.id, h.positive (.inl hs)⟩, nofun, nofun⟩) nofun
  | selfVote hs hv =>
    have hself : { r with vote := r.id } = r := by
      cases r
      cases hv
      rfl
    have hg := h.grant (c := r.id) (h.id ▸ h.id_ne) (h.positive (.inl hs)) (.inl hv)
      (m := { type := .voteResp, dst := r.id, src := r.id, term := r.term }) ⟨rfl, rfl⟩ rfl rfl rfl
    rw [hself] at hg
    exact hg
  | voteReject | appReject | appStale => exact h.post nofun nofun
  | fortify hl | timeoutNow hl =>
    exact h.post (fun _ => ⟨nofun, fun _ => hlead hl, nofun⟩) nofun
  | forward hs hm =>
    have htype : (r.stamped { inp with dst := r.lead }).type = inp.type := rfl
    refine h.post (fun _ => a.says_of_type ?_ ?_) fun hg => ?_
    · rcases hm with hm | hm <;> rw [htype, hm] <;> nofun
    · rcases hm with hm | hm <;> rw [htype, hm] <;> rfl
    · have := hg.1
      rcases hm with hm | hm <;> rw [htype, hm] at this <;> cases this
  | other hm hs =>
    refine h.post (fun _ => a.says_of_type ?_ ?_) fun hg => ?_
    · rcases hm with hm | hm | hm | hm <;> rw [hm] <;> nofun
    · rcases hm with hm | hm | hm | hm <;> rw [hm] <;> rfl
    · have := hg.1
      rcases hm with hm | hm | hm | hm <;> rw [hm] at this <;> cases this

/-- What one small step keeps. -/
theorem micro (h : Voting a r) (hin : a.Heard inp) (hm : Micro env inp r r')
    (hne : a.cs.voters ≠ []) : Voting a r' := by
  obtain ⟨hpending, hstorage⟩ := h.snapshots hin hm.logMoves
  cases hm with
  | quiet hs hmsgs haft =>
    refine h.turn hs.id hs.config (.inl ⟨hs.term, hs.vote⟩) ?_ hmsgs haft hpending hstorage ?_ ?_
    · rw [hs.state, hs.term]
      exact h.positive
    · rw [hs.state, hs.votes, hs.term]
      exact h.tally
    · rw [hs.state, hs.term]
      exact h.leads
  | send hs => exact h.send hs
  | follow hf =>
    rename_i t l
    refine h.turn (atTerm_id r t) (atTerm_config r t) ?_
      (fun hs => by rcases hs with hs | hs <;> cases hs) (atTerm_msgs r t)
      (atTerm_msgsAfterAppend r t) hpending hstorage (fun hs => by cases hs) fun hs => by cases hs
    have hterm : (r.asFollower env t l).term = t := atTerm_term r t
    rw [hterm]
    rcases follow_term hin hf with rfl | hlt
    · refine .inl ⟨rfl, ?_⟩
      simp [asFollower, resetRest, abortLeaderTransfer, atTerm]
    · exact .inr hlt
  | campaign hs =>
    have hterm : (r.asCandidate env).term = r.term + 1 := atTerm_term r _
    have hlt : r.term < (r.asCandidate env).term := by omega
    refine h.turn (atTerm_id r _) (atTerm_config r _) (.inr hlt) (fun _ => by omega)
      (atTerm_msgs r _) (atTerm_msgsAfterAppend r _) hpending hstorage (fun _ v hv => ?_)
      fun hs => by cases hs
    simp [asCandidate, resetRest] at hv
  | preCampaign hs =>
    exact { h with
      positive := fun hs => by rcases hs with hs | hs <;> cases hs
      tally := fun hs => by cases hs
      leads := fun hs => by cases hs }
  | lead hs hw =>
    exact { h with
      positive := fun _ => h.positive (.inl hs)
      tally := fun hs => by cases hs
      leads := fun _ => h.elected hs hw hne }
  | record ht hm =>
    refine { h with tally := fun hs v hv => ?_ }
    have hnew : r.votes[v]? = some true ∨ v = inp.src ∧ inp.reject = false := by
      simp only [Votes.recordVote, Std.ExtTreeMap.getElem?_insertIfNew] at hv
      split_ifs at hv with hc
      · refine .inr ⟨?_, by simpa using hv⟩
        exact (compare_eq_iff_eq.mp hc.1).symm
      · exact .inl hv
    rcases hnew with hv | ⟨rfl, hrej⟩
    · exact h.tally hs v hv
    · obtain ⟨hpos, hgr⟩ := hin.grant ⟨hm.2, hrej⟩
      rcases ht with ht | ht
      · omega
      · exact ht ▸ hgr
  | recordPre hm =>
    refine { h with tally := fun hs => ?_ }
    have hstate : r.state = .candidate := hs
    rw [hm.1] at hstate
    cases hstate
  | propose hs hlast hv hl =>
    rename_i last es l
    rw [post_raftLog] at hpending hstorage
    have hrl : Voting a { r with raftLog := l } :=
      { h with pending := hpending, storage := hstorage }
    exact hrl.ack rfl
  | matched hs ht hm hk hlt hr ha =>
    rw [hr]
    exact { h with }
  | accept hs ht hm hv hc hl hl' =>
    rename_i l l'
    rw [post_raftLog] at hpending hstorage
    have hrl : Voting a { r with raftLog := l' } :=
      { h with pending := hpending, storage := hstorage }
    exact hrl.ack rfl
  | ackCommitted hs ht hm => exact h.ack rfl
  | snapRestore hs ht hm hv hgt hl hc heq =>
    rename_i l changer cfg trk isLearner
    rw [post_raftLog] at hpending hstorage
    have hcs := hin.snap hm _ (snapshot_eq_of_lt hgt)
    rw [hcs] at heq
    have hrl : Voting a { r with raftLog := l, config := cfg, trk, isLearner } :=
      { h with config := heq, pending := hpending, storage := hstorage }
    exact hrl.ack rfl
  | grant ht hm hv hu =>
    obtain ⟨hsrc, hpos⟩ := hin.vote hm
    exact h.grant hsrc (ht ▸ hpos) (hv.imp_right And.left) ⟨rfl, rfl⟩ rfl rfl rfl
  | _ => exact { h with pending := hpending, storage := hstorage }

/-- Terms never go down. -/
theorem micro_term (hin : a.Heard inp) (hm : Micro env inp r r') : r.term ≤ r'.term := by
  cases hm with
  | quiet hs => exact hs.term.ge
  | send hs => exact (SameCore.post r _).term.ge
  | follow hf =>
    have hterm := follow_term hin hf
    exact (by omega : r.term ≤ _).trans_eq (atTerm_term r _).symm
  | campaign hs => exact (Nat.le_succ r.term).trans_eq (atTerm_term r _).symm
  | propose | accept | ackCommitted | snapRestore | grant => simp
  | matched hs ht hm hk hlt hr ha => rw [hr]
  | _ => exact le_rfl

theorem steps_term (hin : a.Heard inp) (hs : Steps env inp r r') : r.term ≤ r'.term := by
  induction hs with
  | refl => exact le_rfl
  | tail _ hm ih => exact ih.trans (micro_term hin hm)

/-- What a whole call keeps. -/
theorem steps (h : Voting a r) (hin : a.Heard inp) (hne : a.cs.voters ≠ [])
    (hs : Steps env inp r r') : Voting a r' := by
  induction hs with
  | refl => exact h
  | tail _ hm ih => exact ih.micro hin hm hne

end Calls

end Voting

/-! ## Members -/

/-- A vote, once released, and a quorum of them, stay released. -/
structure Around.Le (a b : Around) : Prop where
  id : b.id = a.id
  cs : b.cs = a.cs
  past : ∀ m ∈ b.past, m ∈ a.past
  saved : b.saved = a.saved
  granted : ∀ v c t, a.granted v c t → b.granted v c t

variable {a b : Around}

theorem Around.Elected.mono (hcs : b.cs = a.cs)
    (hg : ∀ v c t, a.granted v c t → b.granted v c t) {c : PeerID} {t : Nat}
    (h : a.Elected c t) : b.Elected c t := by
  obtain ⟨q, hq, hv⟩ := h
  exact ⟨q, hcs ▸ hq, fun v hvq => hg v c t (hv v hvq)⟩

theorem Around.Says.mono (h : a.Says m) (hid : b.id = a.id)
    (hcs : b.cs = a.cs) (hg : ∀ v c t, a.granted v c t → b.granted v c t) : b.Says m where
  vote ht := hid ▸ h.vote ht
  leader ht := by
    obtain ⟨hs, hp, he⟩ := h.leader ht
    rw [hid]
    exact ⟨hs, hp, he.mono hcs hg⟩
  snap ht := hcs ▸ h.snap ht

theorem Voting.mono {r : RaftNode} (h : Voting a r) (hab : a.Le b) : Voting b r := by
  have hmem : ∀ m ∈ b.past ++ r.msgsAfterAppend, m ∈ a.past ++ r.msgsAfterAppend := by
    intro m hm
    rcases mem_append.mp hm with hm | hm
    · exact mem_append_left _ (hab.past m hm)
    · exact mem_append_right _ hm
  exact {
    id := h.id.trans hab.id.symm
    id_ne := hab.id ▸ h.id_ne
    config := hab.cs ▸ h.config
    positive := h.positive
    later := hab.saved ▸ h.later
    backed := fun m hm hg => hab.id ▸ h.backed m (hmem m hm) hg
    unique := fun m hm m' hm' => h.unique m (hmem m hm) m' (hmem m' hm')
    msgs := fun m hm => ⟨(h.msgs m hm).1.mono hab.id hab.cs hab.granted, (h.msgs m hm).2⟩
    after := h.after
    pending := hab.cs ▸ h.pending
    storage := hab.cs ▸ h.storage
    tally := fun hs v hv => hab.id ▸ hab.granted _ _ _ (h.tally hs v hv)
    leads := fun hs => hab.id ▸ (h.leads hs).mono hab.cs hab.granted }

namespace Member

/-- Everything released, or to be released once the writes before it are done. -/
def past (mb : Member) : List Message := mb.sent ++ mb.queue.flatMap (·.responses)

def around (i : PeerID) (cs : ConfState) (granted : PeerID → PeerID → Nat → Prop)
    (mb : Member) : Around where
  id := i
  cs := cs
  past := mb.past
  saved := mb.node.prevHardSt
  granted := granted

/-- What a crash leaves: storage, and what was released. -/
abbrev Disk := MemoryStorage × List Message

/-- The append thread processes a write. -/
def write (d : Disk) (w : StorageAppend) : Except Panic Disk := do
  let ms ← w.persist d.1
  return (ms, d.2 ++ w.responses.filter (!isLocalAck ·))

/-- The hard state in storage stands by all votes released. -/
def Keeps (d : Disk) : Prop :=
  ∀ m ∈ d.2, IsGrant m → StandsBy d.1.hardState.term d.1.hardState.vote m

/-- What a member keeps, as far as votes are concerned. -/
structure Ballot (i : PeerID) (cs : ConfState) (granted : PeerID → PeerID → Nat → Prop)
    (mb : Member) : Prop where
  voting : Voting (mb.around i cs granted) mb.raft
  sent : ∀ m ∈ mb.sent, (mb.around i cs granted).Says m
  acks : ∀ m ∈ mb.acks, m.type = .storageAppendResp ∨ m.type = .storageApplyResp
  writes : ∀ w ∈ mb.queue, (∀ m ∈ w.responses, RaftNode.sentAfterAppend m.type = true ∨
    m.type = .storageAppendResp) ∧ ∀ s ∈ w.snapshot, s.metadata.confState = cs
  durable : Settles write (fun _ => True) Keeps (mb.storage, mb.sent) mb.queue
  saved : Ends write (fun _ => True) (fun d =>
    d.1.hardState.term = mb.node.prevHardSt.term ∧ d.1.hardState.vote = mb.node.prevHardSt.vote)
      (mb.storage, mb.sent) mb.queue

variable {i : PeerID} {cs : ConfState} {granted : PeerID → PeerID → Nat → Prop} {mb : Member}

/-- What is sent meanwhile does not matter to the append thread. -/
theorem write_send (ms : List Message) (d : Disk) (w : StorageAppend) :
    write (d.1, ms ++ d.2) w = (write d w).map fun d => (d.1, ms ++ d.2) := by
  unfold write
  cases w.persist d.1 with
  | error p => rfl
  | ok ms' =>
    show Except.ok (ms', ms ++ d.2 ++ w.responses.filter (!isLocalAck ·)) = _
    rw [append_assoc]
    rfl

theorem write_of_persist {w : StorageAppend} {d : Disk} {ms : MemoryStorage}
    (h : w.persist d.1 = .ok ms) :
    write d w = .ok (ms, d.2 ++ w.responses.filter (!isLocalAck ·)) := by
  unfold write
  rw [h]
  rfl

theorem ends_out : ∀ (q : List StorageAppend) (d : Disk), Ends write (fun _ => True)
    (fun d' => ∀ m ∈ d'.2, m ∈ d.2 ∨ ∃ w ∈ q, m ∈ w.responses) d q
  | [], _ => fun _ hm => .inl hm
  | w :: q, d => by
    refine Sat.bind (P := fun _ => True) (sat_iff.mpr ⟨fun _ _ => trivial, fun _ _ => trivial⟩)
      fun ms _ => ?_
    refine (ends_out q (ms, d.2 ++ w.responses.filter (!isLocalAck ·))).mono fun d' hd' m hm => ?_
    rcases hd' m hm with h | ⟨v, hv, h⟩
    · rcases mem_append.mp h with h | h
      · exact .inl h
      · exact .inr ⟨w, mem_cons_self, (mem_filter.mp h).1⟩
    · exact .inr ⟨v, mem_cons_of_mem _ hv, h⟩

namespace Ballot

section

variable (h : Ballot i cs granted mb)
include h

/-- A Ready without a hard state means that term and vote are already on their
way to storage. -/
theorem unchanged
    (he : isEmptyHardState mb.node.nextHardState = true) :
    mb.node.prevHardSt.term = mb.raft.term ∧ mb.node.prevHardSt.vote = mb.raft.vote := by
  unfold RawNode.nextHardState at he
  split_ifs at he with hsame
  · rw [← hsame]
    exact ⟨rfl, rfl⟩
  · have hempty : mb.raft.hardState = {} := by simpa [isEmptyHardState] using he
    have hterm : mb.raft.term = 0 := congrArg HardState.term hempty
    have hvote : mb.raft.vote = None := congrArg HardState.vote hempty
    have hlater : mb.node.prevHardSt.term < mb.raft.term ∨
        mb.node.prevHardSt.term = mb.raft.term ∧ (mb.node.prevHardSt.vote = None ∨
          mb.node.prevHardSt.vote = mb.raft.vote) := h.voting.later
    rcases hlater with hlt | ⟨heq, hv | hv⟩
    · omega
    · exact ⟨heq, hv.trans hvote.symm⟩
    · exact ⟨heq, hv⟩

/-- A Ready hands out term and vote, or has done so before. -/
theorem saved_ready [Codec] {mb' : Member}
    (hr : mb.Readied mb' l) : mb'.node.prevHardSt.term = mb.raft.term ∧
      mb'.node.prevHardSt.vote = mb.raft.vote := by
  rw [hr.saved]
  split_ifs with he
  · exact h.unchanged he
  · unfold RawNode.nextHardState at he ⊢
    split_ifs at he ⊢ with hsame
    · exact absurd rfl he
    · exact ⟨rfl, rfl⟩

/-- The hard state that the write of a Ready leaves behind. -/
theorem written {ms ms' : MemoryStorage}
    (hms : ms.hardState.term = mb.node.prevHardSt.term ∧
      ms.hardState.vote = mb.node.prevHardSt.vote)
    (hw : mb.node.newStorageAppendMsg.persist ms = .ok ms') :
    ms'.hardState.term = mb.raft.term ∧ ms'.hardState.vote = mb.raft.vote := by
  obtain ⟨hhs, -⟩ := StorageAppend.persist_spec hw
  have hnext : mb.node.newStorageAppendMsg.hardState = mb.node.nextHardState := rfl
  rw [hnext] at hhs
  cases he : isEmptyHardState mb.node.nextHardState with
  | true =>
    obtain ⟨ht, hv⟩ := h.unchanged he
    rw [he, if_pos rfl] at hhs
    rw [hhs]
    exact ⟨hms.1.trans ht, hms.2.trans hv⟩
  | false =>
    rw [he, if_neg Bool.false_ne_true] at hhs
    rw [hhs]
    unfold RawNode.nextHardState at he ⊢
    split_ifs at he ⊢ with hsame
    · cases he
    · exact ⟨rfl, rfl⟩

theorem persist {w : StorageAppend} {queue : List StorageAppend}
    {ms : MemoryStorage} (hq : mb.queue = w :: queue) (hw : w.persist mb.storage = .ok ms) :
    Ballot i cs granted (mb.written w queue ms) := by
  obtain ⟨-, hsnap⟩ := StorageAppend.persist_spec hw
  obtain ⟨htypes, hcs⟩ := h.writes w (hq ▸ mem_cons_self)
  have hwrite := @write_of_persist w (mb.storage, mb.sent) ms hw
  have hpast : ∀ m ∈ (mb.written w queue ms).past, m ∈ mb.past := by
    intro m hm
    unfold past at hm ⊢
    rw [hq, flatMap_cons, ← append_assoc]
    rcases mem_append.mp hm with hm | hm
    · refine mem_append_left _ ?_
      rcases mem_append.mp hm with hm | hm
      · exact mem_append_left _ hm
      · exact mem_append_right _ (mem_filter.mp hm).1
    · exact mem_append_right _ hm
  have hdurable := h.durable
  have hsaved := h.saved
  rw [hq] at hdurable hsaved
  constructor
  case voting =>
    have hle : (mb.around i cs granted).Le ((mb.written w queue ms).around i cs granted) :=
      ⟨rfl, rfl, hpast, rfl, fun _ _ _ hv => hv⟩
    have hmono := h.voting.mono hle
    refine { hmono with storage := ?_ }
    show ms.snapshot.metadata.confState = cs
    rw [hsnap]
    cases hs : w.snapshot with
    | none => exact h.voting.storage
    | some s => exact hcs s hs
  case sent =>
    intro m hm
    rcases mem_append.mp hm with hm | hm
    · exact (h.sent m hm).mono (b := (mb.written w queue ms).around i cs granted) rfl rfl
        fun _ _ _ hv => hv
    · obtain ⟨hm, hloc⟩ := mem_filter.mp hm
      rcases htypes m hm with ht | ht
      · refine Around.says_of_type (fun hv => ?_) ?_
        · rw [hv] at ht
          cases ht
        · cases hty : m.type <;> rw [hty] at ht <;> first | rfl | cases ht
      · simp [isLocalAck, ht] at hloc
  case acks =>
    intro m hm
    rcases mem_append.mp hm with hm | hm
    · exact h.acks m hm
    · have hloc := (mem_filter.mp hm).2
      exact .inl (by simpa [isLocalAck] using hloc)
  case writes =>
    intro v hv
    exact h.writes v (hq ▸ mem_cons_of_mem _ hv)
  case durable => exact hdurable.2.elim hwrite
  case saved =>
    have hsat : Sat (write (mb.storage, mb.sent) w) _ _ := hsaved
    exact hsat.elim hwrite

end

variable [Codec]

theorem call (h : Ballot i cs granted mb) {env : Env} {inp : Message} {r : RaftNode}
    (hin : (mb.around i cs granted).Heard inp) (hne : cs.voters ≠ [])
    (hs : RaftNode.Steps env inp mb.raft r) : Ballot i cs granted (mb.withRaft r) := by
  have hstorage : (mb.withRaft r).storage = mb.storage := hs.storage
  exact { h with
    voting := h.voting.steps hin hne hs
    durable := by
      rw [hstorage]
      exact h.durable
    saved := by
      rw [hstorage]
      exact h.saved }

theorem ready (h : Ballot i cs granted mb) {mb' : Member} (hr : mb.Readied mb' l) :
    Ballot i cs granted mb' := by
  obtain ⟨hst, hsnap⟩ := hr.frame
  have hsent : ∀ m ∈ mb.raft.msgs, (mb.around i cs granted).Says m ∧
      RaftNode.sentAfterAppend m.type = false := h.voting.msgs
  have hnogrant : ∀ m ∈ mb.raft.msgs, ¬ IsGrant m := by
    intro m hm hg
    have := (hsent m hm).2
    rw [hg.1] at this
    cases this
  have hstorage : mb'.storage = mb.storage := by
    show mb'.raft.raftLog.storage = _
    rw [hr.raft]
    exact hst
  have hprev := h.saved_ready hr
  have hdurable := h.durable.map (write_send mb.raft.msgs) fun d hd m hm hg => by
    rcases mem_append.mp hm with hm | hm
    · exact absurd hg (hnogrant m hm)
    · exact hd m hm hg
  have hsaved := h.saved.map (write_send mb.raft.msgs) fun d hd => hd
  have hgrants : ∀ m ∈ mb'.past, IsGrant m → m ∈ mb.past ++ mb.raft.msgsAfterAppend := by
    intro m hm hg
    unfold past at hm
    rw [hr.sent, hr.queue, flatMap_append, append_assoc, mem_append,
      ← append_assoc, mem_append] at hm
    rcases hm with hm | hm | hm
    · exact absurd hg (hnogrant m hm)
    · exact mem_append_left _ hm
    · obtain ⟨w, hw, hm⟩ := mem_flatMap.mp hm
      split_ifs at hw
      · rw [mem_singleton.mp hw] at hm
        rcases mem_newStorageAppendMsg hm with hm | ht
        · exact mem_append_right _ hm
        · rw [hg.1] at ht
          cases ht
      · cases hw
  -- Once all writes before it are done, the new one leaves term and vote as they are now.
  have hend : Ends write (fun _ => True) (fun d => Sat (write d mb.node.newStorageAppendMsg)
      (fun _ => True) fun d' => d'.1.hardState.term = mb.raft.term ∧
        d'.1.hardState.vote = mb.raft.vote ∧
        ∀ m ∈ d'.2, IsGrant m → m ∈ mb.past ++ mb.raft.msgsAfterAppend)
      (mb.storage, mb.raft.msgs ++ mb.sent) mb.queue := by
    refine (hsaved.and (ends_out mb.queue (mb.storage, mb.raft.msgs ++ mb.sent))).mono ?_
    rintro d ⟨hd, hout⟩
    refine Sat.bind (P := fun ms' => ms'.hardState.term = mb.raft.term ∧
      ms'.hardState.vote = mb.raft.vote)
      (sat_iff.mpr ⟨fun _ _ => trivial, fun ms' hms' => h.written hd hms'⟩) fun ms' hms' => ?_
    refine ⟨hms'.1, hms'.2, fun m hm hg => ?_⟩
    rcases mem_append.mp hm with hm | hm
    · rcases hout m hm with hm | ⟨w, hw, hm⟩
      · rcases mem_append.mp hm with hm | hm
        · exact absurd hg (hnogrant m hm)
        · exact mem_append_left _ (mem_append_left _ hm)
      · exact mem_append_left _ (mem_append_right _ (mem_flatMap.mpr ⟨w, hw, hm⟩))
    · rcases mem_newStorageAppendMsg (mem_filter.mp hm).1 with hm | ht
      · exact mem_append_right _ hm
      · rw [hg.1] at ht
        cases ht
  constructor
  case voting =>
    rw [hr.raft]
    exact h.voting.handOut (b := mb'.around i cs granted) rfl rfl rfl hprev hgrants hst hsnap
  case sent =>
    intro m hm
    rw [hr.sent] at hm
    rcases mem_append.mp hm with hm | hm
    · exact (hsent m hm).1.mono (b := mb'.around i cs granted) rfl rfl fun _ _ _ hv => hv
    · exact (h.sent m hm).mono (b := mb'.around i cs granted) rfl rfl fun _ _ _ hv => hv
  case acks =>
    intro m hm
    rcases hr.acks m hm with hm | hm
    · exact h.acks m hm
    · exact .inr hm
  case writes =>
    intro w hw
    rw [hr.queue] at hw
    rcases mem_append.mp hw with hw | hw
    · exact h.writes w hw
    · split_ifs at hw
      · rw [mem_singleton.mp hw]
        refine ⟨fun m hm => (mem_newStorageAppendMsg hm).imp_left (h.voting.after m),
          fun s hs => ?_⟩
        exact h.voting.pending s (RaftLog.mem_nextWrite_snapshot hs)
      · cases hw
  case durable =>
    rw [hstorage, hr.sent, hr.queue]
    split_ifs
    · refine hdurable.snoc (hend.mono fun d hd => hd.imp fun d' hd' => ?_)
      intro m hm hg
      obtain ⟨hterm, hvote, hmem⟩ := hd'
      rw [hterm, hvote]
      exact (h.voting.backed m (hmem m hm hg) hg).2.2.2
    · rw [append_nil]
      exact hdurable
  case saved =>
    rw [hstorage, hr.sent, hr.queue]
    split_ifs with hneed
    · refine (hend.mono fun d hd => hd.imp fun d' hd' => ?_).snoc
      exact ⟨hd'.1.trans hprev.1.symm, hd'.2.1.trans hprev.2.symm⟩
    · have he : isEmptyHardState mb.node.nextHardState = true := by
        simp only [RawNode.needStorageAppendMsg, Bool.not_eq_true, Bool.or_eq_false_iff,
          Bool.not_eq_false'] at hneed
        exact hneed.1.1.2
      obtain ⟨ht, hv⟩ := h.unchanged he
      rw [append_nil]
      refine hsaved.mono fun d hd => ?_
      exact ⟨(hd.1.trans ht).trans hprev.1.symm, (hd.2.trans hv).trans hprev.2.symm⟩

/-- A node that has just been started, over storage that stands by the votes
released so far. -/
theorem init {storage : MemoryStorage} {sent : List Message} {env : Env} {c : Settings}
    {node : RawNode} (hc : c.id = i) (hcs : storage.snapshot.metadata.confState = cs)
    (hkeeps : Keeps (storage, sent))
    (hsaid : ∀ m ∈ sent, (Around.mk i cs [] {} granted).Says m)
    (hgrants : ∀ m ∈ sent, IsGrant m → m.src = i ∧ 0 < m.term ∧ m.dst ≠ None)
    (hunique : ∀ m ∈ sent, ∀ m' ∈ sent, IsGrant m → IsGrant m' → m.term = m'.term →
      m.dst = m'.dst)
    (hnew : RawNode.new env c storage = .ok node) : Ballot i cs granted { node, sent } := by
  obtain ⟨raft, hraft, h⟩ := bind_eq_ok.mp hnew
  cases h
  have hst := (newRaft_started env c storage).elim hraft
  obtain ⟨hstorage, hsnap⟩ := hst.frame
  obtain ⟨-, -, -, hequiv⟩ := hst.config
  have hmem : ∀ m ∈ (sent ++ []) ++ raft.msgsAfterAppend, m ∈ sent := by
    intro m hm
    rw [hst.msgsAfterAppend, append_nil, append_nil] at hm
    exact hm
  constructor
  case voting =>
    exact {
      id := hst.id.trans hc
      id_ne := hc ▸ hst.id_ne
      config := hcs ▸ hequiv
      positive := by
        rw [hst.state]
        nofun
      later := .inr ⟨rfl, .inr rfl⟩
      backed := by
        intro m hm hg
        obtain ⟨h1, h2, h3⟩ := hgrants m (hmem m hm) hg
        refine ⟨h1, h2, h3, ?_⟩
        rw [hst.term, hst.vote]
        exact hkeeps m (hmem m hm) hg
      unique := fun m hm m' hm' => hunique m (hmem m hm) m' (hmem m' hm')
      msgs := by
        rw [hst.msgs]
        intro m hm
        cases hm
      after := by
        rw [hst.msgsAfterAppend]
        intro m hm
        cases hm
      pending := by
        rw [hsnap]
        nofun
      storage := by
        rw [hstorage]
        exact hcs
      tally := by
        rw [hst.state]
        nofun
      leads := by
        rw [hst.state]
        nofun }
  case sent =>
    intro m hm
    exact (hsaid m hm).mono rfl rfl fun _ _ _ hv => hv
  case acks =>
    intro m hm
    cases hm
  case writes =>
    intro w hw
    cases hw
  case durable =>
    show Keeps (raft.raftLog.storage, sent)
    rw [hstorage]
    exact hkeeps
  case saved =>
    show raft.raftLog.storage.hardState.term = raft.term ∧
      raft.raftLog.storage.hardState.vote = raft.vote
    rw [hstorage, hst.term, hst.vote]
    exact ⟨rfl, rfl⟩

theorem restart (h : Ballot i cs granted mb) {env : Env} {c : Settings} {node : RawNode}
    (hc : c.id = i) (hnew : RawNode.new env c mb.storage = .ok node) :
    Ballot i cs granted { node, sent := mb.sent } := by
  have hpast : ∀ m ∈ mb.sent, m ∈ mb.past ++ mb.raft.msgsAfterAppend := by
    intro m hm
    exact mem_append_left _ (mem_append_left _ hm)
  refine init hc h.voting.storage h.durable.head ?_ ?_ ?_ hnew
  · intro m hm
    exact (h.sent m hm).mono rfl rfl fun _ _ _ hv => hv
  · intro m hm hg
    obtain ⟨h1, h2, h3, -⟩ := h.voting.backed m (hpast m hm) hg
    exact ⟨h1, h2, h3⟩
  · intro m hm m' hm'
    exact h.voting.unique m (hpast m hm) m' (hpast m' hm')

end Ballot

/-- The votes that were released are for one candidate a term. -/
theorem Ballot.unique (h : Ballot i cs granted mb) {m m' : Message} (hm : m ∈ mb.sent)
    (hm' : m' ∈ mb.sent) : IsGrant m → IsGrant m' → m.term = m'.term → m.dst = m'.dst :=
  h.voting.unique m (mem_append_left _ (mem_append_left _ hm)) m'
    (mem_append_left _ (mem_append_left _ hm'))

theorem Ballot.mono {granted' : PeerID → PeerID → Nat → Prop} (h : Ballot i cs granted mb)
    (hg : ∀ v c t, granted v c t → granted' v c t) : Ballot i cs granted' mb :=
  { h with
    voting := h.voting.mono ⟨rfl, rfl, fun _ hm => hm, rfl, hg⟩
    sent := fun m hm => (h.sent m hm).mono rfl rfl hg }

end Member

/-! ## Clusters -/

namespace Network

variable {ids : Finset PeerID} {cs : ConfState} {n n' : Network}

/-- Member `v` has released its vote for `c` at term `t`. -/
def Granted (ids : Finset PeerID) (n : Network) (v c : PeerID) (t : Nat) : Prop :=
  v ∈ ids ∧ ∃ m ∈ (n v).sent, IsGrant m ∧ m.dst = c ∧ m.term = t

/-- What every run keeps. -/
def Ballots (ids : Finset PeerID) (cs : ConfState) (n : Network) : Prop :=
  ∀ i ∈ ids, (n i).Ballot i cs (n.Granted ids)

/-- What a member hears is what a member said. -/
theorem Ballots.heard (h : Ballots ids cs n) {i : PeerID} (hi : i ∈ ids)
    (hm : n.Hears ids i m) : ((n i).around i cs (n.Granted ids)).Heard m := by
  have hother : (m.type ≠ .vote ∧ isMsgFromLeader m.type = false ∧ m.type ≠ .voteResp) →
      ((n i).around i cs (n.Granted ids)).Heard m := by
    rintro ⟨hv, hl, hr⟩
    refine ⟨fun ht => absurd ht hv, fun ht => ?_, fun ht => ?_, fun hg => absurd hg.1 hr⟩
    · rw [hl] at ht
      cases ht
    · rw [ht] at hl
      cases hl
  rcases hm with hm | hm | ⟨j, hj, hm, hdst⟩
  · apply hother
    rcases (h i hi).acks m hm with ht | ht
    · rw [ht]
      exact ⟨nofun, rfl, nofun⟩
    · rw [ht]
      exact ⟨nofun, rfl, nofun⟩
  · apply hother
    rcases hm.2 with ht | ht | ht | ht | ht | ht <;> rw [ht] <;> exact ⟨nofun, rfl, nofun⟩
  · have hb := h j hj
    have hsaid := hb.sent m hm
    have hpast : m ∈ (n j).past ++ (n j).raft.msgsAfterAppend :=
      mem_append_left _ (mem_append_left _ hm)
    constructor
    case vote =>
      intro ht
      obtain ⟨hsrc, hpos⟩ := hsaid.vote ht
      exact ⟨hsrc ▸ hb.voting.id_ne, hpos⟩
    case leader =>
      intro ht
      obtain ⟨hsrc, hpos, hel⟩ := hsaid.leader ht
      rw [hsrc]
      exact ⟨hb.voting.id_ne, hpos, hel⟩
    case snap => exact hsaid.snap
    case grant =>
      intro hg
      obtain ⟨hsrc, hpos, -, -⟩ := hb.voting.backed m hpast hg
      refine ⟨hpos, ?_⟩
      rw [hsrc]
      exact ⟨hj, m, hm, hg, hdst, rfl⟩

theorem Granted.mono (hsent : ∀ j, (n j).sent ⊆ (n' j).sent) {v c : PeerID} {t : Nat}
    (h : n.Granted ids v c t) : n'.Granted ids v c t := by
  obtain ⟨hv, m, hm, hg⟩ := h
  exact ⟨hv, m, hsent v hm, hg⟩

section Runs

variable [Codec]

/-- What one step keeps. -/
theorem Ballots.step (h : Ballots ids cs n) (hne : cs.voters ≠ []) (hs : Step ids n n') :
    Ballots ids cs n' := by
  have hmono := hs.sent ids
  obtain ⟨i, hi, mb, hch, rfl⟩ := hs.change
  have hmb : mb.Ballot i cs (n.Granted ids) := by
    cases hch with
    | call hin hsteps => exact (h i hi).call (h.heard hi hin) hne hsteps
    | ready hr => exact (h i hi).ready hr
    | persist hq hw => exact (h i hi).persist hq hw
    | restart hc hnew => exact (h i hi).restart hc hnew
  intro j hj
  by_cases hij : j = i
  · subst hij
    rw [Function.update_self]
    exact hmb.mono fun v c t hg => hg.mono hmono
  · rw [Function.update_of_ne hij]
    exact (h j hj).mono fun v c t hg => hg.mono hmono

/-- What a whole run keeps. -/
theorem Ballots.run (h : Ballots ids cs n) (hne : cs.voters ≠ []) (hr : Run ids n n') :
    Ballots ids cs n' := by
  induction hr with
  | refl => exact h
  | tail _ hs ih => exact ih.step hne hs

theorem Ballots.init {start : PeerID → MemoryStorage} (h : Init ids start n)
    (hcs : ∀ i ∈ ids, (start i).snapshot.metadata.confState = cs) : Ballots ids cs n := by
  intro i hi
  obtain ⟨env, c, node, hc, hnew, hmb⟩ := h i hi
  have hnone : ∀ {p : Message → Prop}, ∀ m ∈ ([] : List Message), p m :=
    fun m hm => absurd hm not_mem_nil
  rw [hmb]
  exact .init hc (hcs i hi) hnone hnone hnone hnone hnew

end Runs

/-- Two quorums of votes that no voter contradicts are for one candidate. -/
theorem Ballots.elected_unique (h : Ballots ids cs n) {i j : PeerID} {t : Nat}
    (ha : a.cs = cs ∧ a.granted = n.Granted ids) (hb : b.cs = cs ∧ b.granted = n.Granted ids)
    (hi : a.Elected i t) (hj : b.Elected j t) : i = j := by
  obtain ⟨q, hq, hqv⟩ := hi
  obtain ⟨q', hq', hqv'⟩ := hj
  rw [ha.1] at hq
  rw [hb.1] at hq'
  obtain ⟨v, -, hv, hv'⟩ := majority_inter_self hq hq'
  have hg := hqv v hv
  have hg' := hqv' v hv'
  rw [ha.2] at hg
  rw [hb.2] at hg'
  obtain ⟨hvi, m, hm, hgm, hd, ht⟩ := hg
  obtain ⟨-, m', hm', hgm', hd', ht'⟩ := hg'
  rw [← hd, ← hd']
  exact (h v hvi).unique hm hm' hgm hgm' (ht.trans ht'.symm)

end Network

open Network in
/-- No two different nodes are ever leader at the same term, at one moment of a
run or at two. Members start from any storage with the configuration `cs`; what
they are configured with otherwise may differ and change at every restart. -/
theorem election_safety [Codec] {ids : Finset PeerID} {cs : ConfState}
    {start : PeerID → MemoryStorage} {n₀ n₁ n₂ : Network}
    (hcs : ∀ i ∈ ids, (start i).snapshot.metadata.confState = cs) (hne : cs.voters ≠ [])
    (h₀ : Init ids start n₀) (h₁ : Run ids n₀ n₁) (h₂ : Run ids n₁ n₂) {i j : PeerID}
    (hi : i ∈ ids) (hj : j ∈ ids) (hli : (n₁ i).raft.state = .leader)
    (hlj : (n₂ j).raft.state = .leader) (ht : (n₁ i).raft.term = (n₂ j).raft.term) : i = j := by
  have hb₁ := (Ballots.init h₀ hcs).run hne h₁
  have hb₂ := hb₁.run hne h₂
  -- What elected the first leader has not been taken back by the second moment.
  have hlater : (n₁ i).Ballot i cs (n₂.Granted ids) :=
    (hb₁ i hi).mono fun v c t hg => hg.mono (h₂.sent ids)
  have hel₁ := hlater.voting.leads hli
  have hel₂ := (hb₂ j hj).voting.leads hlj
  rw [ht] at hel₁
  exact hb₂.elected_unique ⟨rfl, rfl⟩ ⟨rfl, rfl⟩ hel₁ hel₂

/-- Member 1 campaigns and is elected by the other two, before its own vote is
durable. -/
def electOne : List (PeerID × Member.Act) :=
  [(1, .step {} { type := .hup }), (1, .ready),
   (2, .step {} { type := .vote, dst := 2, src := 1, term := 1 }), (2, .ready), (2, .persist),
   (3, .step {} { type := .vote, dst := 3, src := 1, term := 1 }), (3, .ready), (3, .persist),
   (1, .step {} { type := .voteResp, dst := 1, src := 2, term := 1 }),
   (1, .step {} { type := .voteResp, dst := 1, src := 3, term := 1 })]

open Network in
/-- In a cluster of three with a leader, every leader of its term is that one. -/
theorem election_safety_trio : ∃ n, @Run {1, 2, 3} wireCodec trio n ∧
    (n 1).raft.state = .leader ∧ (n 1).raft.term = 1 ∧
    ∀ j ∈ ({1, 2, 3} : Finset PeerID), (n j).raft.state = .leader →
      (n j).raft.term = 1 → 1 = j := by
  let _ := wireCodec
  have hrun : ((trio.perform {1, 2, 3} (fun _ _ => True) electOne).map fun n =>
      ((n 1).raft.state, (n 1).raft.term)) = some (.leader, 1) := by decide +kernel
  obtain ⟨n, hn, hobs⟩ := Option.map_eq_some_iff.mp hrun
  obtain ⟨hstate, hterm⟩ := Prod.mk.inj hobs
  have hr := run_of_perform _ _ hn
  refine ⟨n, hr, hstate, hterm, fun j hj hl ht => ?_⟩
  exact election_safety (fun _ _ => rfl) (List.cons_ne_nil _ _) trio_init hr .refl (by decide) hj
    hstate hl (hterm.trans ht.symm)

open Network in
/-- A vote is durable before anybody hears of it. In every state of every run, storage stands by
each vote that a member has released, before crashes or after, and they are for one candidate a
term. What a member sends as a leader is backed by the votes of a quorum. -/
theorem votes_durable [Codec] {ids : Finset PeerID} {cs : ConfState}
    {start : PeerID → MemoryStorage} {n₀ n : Network}
    (hcs : ∀ i ∈ ids, (start i).snapshot.metadata.confState = cs) (hne : cs.voters ≠ [])
    (h₀ : Init ids start n₀) (h : Run ids n₀ n) {i : PeerID} (hi : i ∈ ids) :
    (∀ m ∈ (n i).sent, IsGrant m →
      StandsBy (n i).storage.hardState.term (n i).storage.hardState.vote m) ∧
    (∀ m ∈ (n i).sent, ∀ m' ∈ (n i).sent, IsGrant m → IsGrant m' → m.term = m'.term →
      m.dst = m'.dst) ∧
    ∀ m ∈ (n i).sent, isMsgFromLeader m.type = true → m.src = i ∧
      ∃ q, IsMajority cs.voters.toFinset q ∧ ∀ v ∈ q, n.Granted ids v i m.term := by
  have hb := (Ballots.init h₀ hcs).run hne h i hi
  refine ⟨hb.durable.head, fun m hm m' hm' => hb.unique hm hm', fun m hm hl => ?_⟩
  obtain ⟨hsrc, -, hel⟩ := (hb.sent m hm).leader hl
  exact ⟨hsrc, hel⟩

open Network in
/-- A member that has voted for another one, with its vote in storage. -/
theorem votes_durable_trio : ∃ n, @Run {1, 2, 3} wireCodec trio n ∧
    (n 2).sent.map (fun m => (m.type, m.dst)) = [(.voteResp, 1)] ∧
    ∀ m ∈ (n 2).sent, IsGrant m →
      StandsBy (n 2).storage.hardState.term (n 2).storage.hardState.vote m := by
  let _ := wireCodec
  have hrun : ((trio.perform {1, 2, 3} (fun _ _ => True) electOne).map fun n =>
      (n 2).sent.map fun m => (m.type, m.dst)) = some [(.voteResp, 1)] := by decide +kernel
  obtain ⟨n, hn, hobs⟩ := Option.map_eq_some_iff.mp hrun
  have hr := run_of_perform _ _ hn
  exact ⟨n, hr, hobs, (votes_durable (fun _ _ => rfl) (cons_ne_nil _ _) trio_init hr (by decide)).1⟩

end Cockroach.Raft
