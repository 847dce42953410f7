import Cockroach.Raft.Elections

/-!
# Leader fortification

A follower that supports a fortified leader has promised not to move to another
term without it. `raft.go` asserts that it keeps that promise, but a message of a
higher term that is neither from a leader nor a vote request makes it break it:
`Step` then calls `becomeFollower` without `deFortify`
(`fortification_asserts_late_rejection`). Late rejections of pre-votes, and late
`MsgAppResp`, `MsgHeartbeatResp`, `MsgVoteResp`, `MsgFortifyLeaderResp` or
forwarded `MsgTransferLeader` are all such messages.

When no such message meets a node that supports another one, no assertion of the
protocol fails (`fortification_asserts_hold`). That rests on election safety: the
epoch a follower remembers is that of its leader, and terms have one leader.
-/

namespace Cockroach.Raft

open Lib Lib.WriteQueue Function

/-- The epochs that store liveness reports in a call. -/
def Env.epochs (env : Env) (l : PeerID) : Epoch := (env.supportFor l).1

/-- A hard state records a leader of its term, and an epoch only with a leader. -/
structure LeadOk (a : Around) (f : PeerID → Epoch) (term : Nat) (lead : PeerID)
    (leadEpoch : Epoch) : Prop where
  elected : lead ≠ None → a.Elected lead term
  epoch : leadEpoch ≠ 0 → lead ≠ None ∧ leadEpoch ≤ f lead

/-- What every call keeps of a node, as far as its leader is concerned. -/
structure Leading (a : Around) (f : PeerID → Epoch) (r : RaftNode) : Prop where
  ok : LeadOk a f r.term r.lead r.leadEpoch
  campaigning : r.state = .candidate ∨ r.state = .preCandidate → r.leadEpoch = 0
  self : r.state = .leader → r.lead = r.id

theorem LeadOk.mono {a b : Around} {f g : PeerID → Epoch} {term : Nat} {lead : PeerID}
    {leadEpoch : Epoch} (h : LeadOk a f term lead leadEpoch) (hcs : b.cs = a.cs)
    (hg : ∀ v c t, a.granted v c t → b.granted v c t) (hf : ∀ l, f l ≤ g l) :
    LeadOk b g term lead leadEpoch where
  elected hl := (h.elected hl).mono hcs hg
  epoch he := ⟨(h.epoch he).1, (h.epoch he).2.trans (hf lead)⟩

namespace Leading

open RaftNode

variable {a : Around} {f : PeerID → Epoch} {r r' : RaftNode}

/-- Nothing that matters here has changed. -/
theorem keep (h : Leading a f r) (hs : SameCore r r') : Leading a f r' where
  ok := by
    rw [hs.term, hs.lead, hs.leadEpoch]
    exact h.ok
  campaigning := by
    rw [hs.state, hs.leadEpoch]
    exact h.campaigning
  self := by
    rw [hs.state, hs.lead, hs.id]
    exact h.self

/-- No epoch is remembered. -/
theorem clear (hlead : r'.lead ≠ None → a.Elected r'.lead r'.term) (hepoch : r'.leadEpoch = 0)
    (hself : r'.state = .leader → r'.lead = r'.id) : Leading a f r' where
  ok := ⟨hlead, fun he => absurd hepoch he⟩
  campaigning := fun _ => hepoch
  self := hself

variable {env : Env} {inp : Message}

/-- A node becomes a follower. -/
theorem follow (h : Leading a env.epochs r) (hin : a.Heard inp) {t : Nat} {l : PeerID}
    (hf : Follow inp r t l) : Leading a env.epochs (r.asFollower env t l) := by
  have hterm : (r.asFollower env t l).term = t := atTerm_term r t
  have hlead : (r.asFollower env t l).lead = l := rfl
  have hself : (r.asFollower env t l).state = .leader →
      (r.asFollower env t l).lead = (r.asFollower env t l).id := by
    intro hs
    cases hs
  have hfollower : (r.asFollower env t l).state = .candidate ∨
      (r.asFollower env t l).state = .preCandidate → (r.asFollower env t l).leadEpoch = 0 := by
    rintro (hs | hs) <;> cases hs
  have hsame : t = r.term → (r.asFollower env t l).leadEpoch = r.leadEpoch := by
    rintro rfl
    simp [asFollower, resetRest, abortLeaderTransfer, atTerm]
  have hnew : t ≠ r.term → (r.asFollower env t l).leadEpoch = 0 := by
    intro hne
    simp [asFollower, resetRest, abortLeaderTransfer, atTerm, hne.symm]
  cases hf with
  | higher hr =>
    refine clear ?_ (hnew hr.higher.ne') hself
    intro hne
    rw [hlead] at hne ⊢
    rw [hterm]
    split_ifs at hne ⊢ with hfrom
    · exact (hin.leader hfrom).2.2
    · exact absurd rfl hne
  | leader ht hs hm =>
    have hfrom := isMsgFromLeader_of hm
    obtain ⟨-, hpos, hel⟩ := hin.leader hfrom
    have heq : inp.term = r.term := ht.resolve_left hpos.ne'
    refine clear ?_ ((hsame heq).trans (h.campaigning hs)) hself
    intro _
    rw [hlead, hterm]
    exact hel
  | same hs =>
    refine ⟨?_, hfollower, hself⟩
    rw [hterm, hlead, hsame rfl]
    exact h.ok
  | stepDown hs =>
    refine ⟨?_, hfollower, hself⟩
    rw [hterm, hlead, hsame rfl, ← h.self hs]
    exact h.ok

section Calls

variable [Codec] (h : Leading a env.epochs r) (hv : Voting a r) (hin : a.Heard inp)
  (huniq : ∀ c c' t, a.Elected c t → a.Elected c' t → c = c') (hne : a.cs.voters ≠ [])

include h hv hin huniq hne

/-- What one small step keeps; terms have one leader. -/
theorem micro (hm : Micro env inp r r') : Leading a env.epochs r' := by
  cases hm with
  | quiet hs => exact h.keep hs
  | send | propose | accept | ackCommitted | snapRestore | grant =>
    refine .keep ?_ (.post _ _)
    exact { h with }
  | follow hf => exact h.follow hin hf
  | campaign hs =>
    refine clear (fun hl => absurd ?_ hl) ?_ fun hst => by cases hst
    · simp [asCandidate, resetRest, abortLeaderTransfer, atTerm]
    · simp [asCandidate, resetRest, abortLeaderTransfer, atTerm]
  | preCampaign hs => exact clear (fun hl => absurd rfl hl) rfl fun hst => by cases hst
  | lead hs hw =>
    refine clear (fun _ => ?_) (h.campaigning (.inl hs)) fun _ => rfl
    show a.Elected r.id r.term
    rw [hv.id]
    exact hv.elected hs hw hne
  | matched hs ht hm hk hlt hr ha =>
    rw [hr]
    exact { h with }
  | hear hs ht hm =>
    obtain ⟨hsrc, hpos, hel⟩ := hin.leader (isMsgFromLeader_of hm)
    have hterm : inp.term = r.term := ht.resolve_left hpos.ne'
    refine ⟨⟨fun _ => hterm ▸ hel, fun he => ?_⟩, fun hst => ?_, fun hst => ?_⟩
    · -- The epoch was that of the same leader.
      obtain ⟨hl, hle⟩ := h.ok.epoch he
      have hsame := huniq _ _ _ (h.ok.elected hl) (hterm ▸ hel)
      refine ⟨hsrc, ?_⟩
      rw [hsame] at hle
      exact hle
    · have hst' : r.state = .candidate ∨ r.state = .preCandidate := hst
      rw [hs] at hst'
      exact absurd hst' (by decide)
    · have hst' : r.state = .leader := hst
      rw [hs] at hst'
      cases hst'
  | forget hs =>
    refine clear (fun hl => absurd rfl hl) rfl fun hst => ?_
    have hst' : r.state = .leader := hst
    rw [hs] at hst'
    cases hst'
  | deFortify => exact clear h.ok.elected rfl h.self
  | fortify hs hl =>
    have hlead : r.lead ≠ None := by
      rcases hs with ⟨-, hlead, -, hm⟩ | hs
      · rw [hlead]
        refine (hin.leader ?_).1
        rw [hm]
        rfl
      · rw [h.self hs, hv.id]
        exact hv.id_ne
    refine ⟨⟨h.ok.elected, fun _ => ⟨hlead, le_rfl⟩⟩, fun hst => ?_, h.self⟩
    have hst' : r.state = .candidate ∨ r.state = .preCandidate := hst
    rcases hs with ⟨hs, -⟩ | hs <;> rw [hs] at hst' <;> exact absurd hst' (by decide)
  | _ => exact { h with }

/-- What a whole call keeps. -/
theorem steps (hs : Steps env inp r r') : Leading a env.epochs r' := by
  induction hs with
  | refl => exact h
  | tail hs' hm ih => exact ih.micro (hv.steps hin hne hs') hin huniq hne hm

omit hv hin huniq hne in
/-- A node starts to support another one only through a message of its own term. -/
theorem micro_supports (hm : Micro env inp r r') (hs : r'.Supports env) :
    inp.term ≤ r'.term ∨ r.Supports env := by
  have hkeep : r'.id = r.id → r'.lead = r.lead → r'.leadEpoch = r.leadEpoch →
      inp.term ≤ r'.term ∨ r.Supports env := by
    intro hid hlead hepoch
    rw [Supports, hid, hlead, hepoch] at hs
    exact .inr hs
  have hself : r'.lead ≠ r'.id := hs.2.2
  have hepoch : r'.leadEpoch ≠ 0 := hs.1
  have hat : r.AtTerm inp → r.term ≤ r'.term → inp.term ≤ r'.term := by
    intro ht hle
    rcases ht with ht | ht <;> omega
  cases hm with
  | quiet hsc => exact hkeep hsc.id hsc.lead hsc.leadEpoch
  | send | propose | accept | ackCommitted | snapRestore | grant =>
    exact hkeep (post_id _ _) (post_lead _ _) (post_leadEpoch _ _)
  | follow hf =>
    rename_i t l
    have hterm : (r.asFollower env t l).term = t := atTerm_term r t
    rw [hterm]
    cases hf with
    | higher | leader => exact .inl le_rfl
    | same hst =>
      refine .inr ?_
      have hsame : (r.asFollower env r.term r.lead).leadEpoch = r.leadEpoch := by
        simp [asFollower, resetRest, abortLeaderTransfer, atTerm]
      have hid : (r.asFollower env r.term r.lead).id = r.id := atTerm_id r r.term
      rw [Supports, hsame, hid] at hs
      exact hs
    | stepDown hst => exact absurd (atTerm_id r r.term).symm hself
  | campaign hst =>
    refine absurd ?_ hepoch
    simp [asCandidate, resetRest, abortLeaderTransfer, atTerm]
  | preCampaign | forget | deFortify => exact absurd rfl hepoch
  | lead hst hw => exact absurd rfl hself
  | matched hst ht hm hk hlt hr ha =>
    rw [hr] at hkeep
    exact hr ▸ hkeep rfl rfl rfl
  | hear hst ht hm => exact .inl (hat ht le_rfl)
  | fortify hst hl =>
    rcases hst with ⟨-, -, ht, -⟩ | hst
    · exact .inl (hat ht le_rfl)
    · exact absurd (h.self hst) hself
  | _ => exact hkeep rfl rfl rfl

/-- A message of a higher term that meets a node in its promise has met it so at
the start of the call. -/
theorem steps_supports (hs : Steps env inp r r') (hsup : r'.Supports env) (hr : r'.Raises inp) :
    r.Supports env ∧ r.Raises inp := by
  refine ⟨?_, lt_of_le_of_lt (Voting.steps_term hin hs) hr.higher, hr.notPreVote, hr.notGranted⟩
  have hlt := hr.higher
  clear hr
  induction hs with
  | refl => exact hsup
  | tail hs' hm ih =>
    rcases (h.steps hv hin huniq hne hs').micro_supports hm hsup with hle | hsup'
    · omega
    · exact ih hsup' (lt_of_le_of_lt (Voting.micro_term hin hm) hlt)

end Calls

end Leading

/-! ## Members -/

section CalmMember

theorem calm_persist (w : StorageAppend) (ms : MemoryStorage) : Calm (w.persist ms) := by
  have happend : ∀ (ms : MemoryStorage) (es : List Entry), Calm (ms.append es) := by
    intro ms es
    cases es with
    | nil => exact .pure _
    | cons e es =>
      exact .ite (.pure _) (.bind (.assertTrue rfl) fun _ => .pure _)
  unfold StorageAppend.persist MemoryStorage.write
  cases w.snapshot with
  | none => exact happend _ _
  | some s =>
    dsimp only
    split
    · exact .throw rfl
    · exact happend _ _

variable [Codec]

theorem calm_ready (rn : RawNode) : Calm rn.ready := by
  refine .bind ?_ fun rd => .bind ?_ fun _ => .pure _
  · refine .bind ?_ fun _ => .pure _
    unfold RaftLog.nextCommittedEnts
    refine .ite (.pure _) (.ite (.pure _) (.ite (.pure _) ?_))
    refine .bind (.assertTrue rfl) fun _ => .bind (calm_slice _ _ _) ?_
    intro ents
    cases ents with
    | error err => exact .throw rfl
    | ok ents => exact .pure _
  · refine .bind ?_ fun _ => .pure _
    unfold RawNode.acceptApplying
    cases rd.committedEntries.getLast? with
    | none => exact .pure _
    | some e => exact .bind (.assertTrue rfl) fun _ => .pure _

theorem calm_new (env : Env) (c : Settings) (storage : MemoryStorage) :
    Calm (RawNode.new env c storage) := by
  refine .bind ?_ fun _ => .pure _
  unfold RaftNode.newRaft
  refine .bind ?_ fun c' => .bind ?_ fun l => .bind calm_lastEntryID fun lastID => ?_
  · unfold Settings.validate
    refine .bind (.assertTrue rfl) fun _ => ?_
    refine .bind (.assertTrue rfl) fun _ => ?_
    refine .bind (.assertTrue rfl) fun _ => ?_
    exact .bind (.assertTrue rfl) fun _ => .pure _
  · unfold RaftLog.newLogWithSize
    dsimp only
    split
    · exact .throw rfl
    · exact .pure _
  · refine .bind ((RaftNode.restoreConfig_follower rfl _ _).imp fun _ _ => trivial) fun r₁ => ?_
    refine .bind ?_ fun r₂ => .bind ?_ fun r₃ => ?_
    · exact .ite (.pure _) (.bind (.assertTrue rfl) fun _ => .pure _)
    · exact .ite (.bind (calm_appliedTo _ _) fun _ => .pure _) (.pure _)
    · -- The term does not change here, so `reset` asserts nothing.
      unfold RaftNode.becomeFollower RaftNode.reset
      rw [if_pos rfl]
      exact .pure _

end CalmMember

namespace Member

/-- The hard state in storage records a leader of its term. -/
def LeadKept (a : Around) (f : PeerID → Epoch) (d : Disk) : Prop :=
  LeadOk a f d.1.hardState.term d.1.hardState.lead d.1.hardState.leadEpoch

/-- What a member keeps, as far as its leader is concerned. -/
structure Fortified (a : Around) (f : PeerID → Epoch) (mb : Member) : Prop where
  leading : Leading a f mb.raft
  durable : Settles write (fun _ => True) (LeadKept a f) (mb.storage, mb.sent) mb.queue

namespace Fortified

variable {a b : Around} {f g : PeerID → Epoch} {mb : Member}

theorem mono (h : Fortified a f mb) (hcs : b.cs = a.cs)
    (hg : ∀ v c t, a.granted v c t → b.granted v c t) (hf : ∀ l, f l ≤ g l) :
    Fortified b g mb where
  leading := ⟨h.leading.ok.mono hcs hg hf, h.leading.campaigning, h.leading.self⟩
  durable := h.durable.mono fun _ hd => hd.mono hcs hg hf

theorem persist (h : Fortified a f mb) {w : StorageAppend} {queue : List StorageAppend}
    {ms : MemoryStorage} (hq : mb.queue = w :: queue) (hw : w.persist mb.storage = .ok ms) :
    Fortified a f (mb.written w queue ms) := by
  have hdurable := h.durable
  rw [hq] at hdurable
  exact ⟨{ h.leading with }, hdurable.2.elim (write_of_persist hw)⟩

/-- The write of a Ready leaves the hard state of the node, or the one that was there. -/
theorem written (h : Fortified a f mb) {d : Disk} (hd : LeadKept a f d) :
    Sat (write d mb.node.newStorageAppendMsg) (fun _ => True) (LeadKept a f) := by
  refine Sat.bind (P := fun ms => ∀ out, LeadKept a f (ms, out))
    (sat_iff.mpr ⟨fun _ _ => trivial, fun ms hms out => ?_⟩) fun _ hms => hms _
  have hnext : mb.node.newStorageAppendMsg.hardState = mb.node.nextHardState := rfl
  unfold LeadKept
  rw [(StorageAppend.persist_spec hms).1, hnext]
  cases he : isEmptyHardState mb.node.nextHardState with
  | true => exact hd
  | false =>
    rw [if_neg Bool.false_ne_true]
    unfold RawNode.nextHardState at he ⊢
    split_ifs at he ⊢
    · cases he
    · exact h.leading.ok

variable [Codec]

theorem call {env : Env} (h : Fortified a env.epochs mb) (hv : Voting a mb.raft) {inp : Message}
    {r : RaftNode} (hin : a.Heard inp)
    (huniq : ∀ c c' t, a.Elected c t → a.Elected c' t → c = c') (hne : a.cs.voters ≠ [])
    (hs : RaftNode.Steps env inp mb.raft r) : Fortified a env.epochs (mb.withRaft r) := by
  have hstorage : (mb.withRaft r).storage = mb.storage := hs.storage
  refine ⟨h.leading.steps hv hin huniq hne hs, ?_⟩
  rw [hstorage]
  exact h.durable

theorem ready (h : Fortified a f mb) {mb' : Member} {l : RaftLog} (hr : mb.Readied mb' l) :
    Fortified a f mb' := by
  have hstorage : mb'.storage = mb.storage := by
    show mb'.raft.raftLog.storage = _
    rw [hr.raft]
    exact hr.frame.1
  have hdurable := h.durable.map (write_send mb.raft.msgs) fun _ hd => hd
  constructor
  case leading =>
    rw [hr.raft]
    exact { h.leading with }
  case durable =>
    rw [hstorage, hr.sent, hr.queue]
    split_ifs
    · exact hdurable.snoc (hdurable.ends.mono fun _ hd => h.written hd)
    · rw [List.append_nil]
      exact hdurable

/-- A node that has just been started. -/
theorem init {storage : MemoryStorage} {sent : List Message} {env : Env} {c : Settings}
    {node : RawNode} (hok : LeadKept a f (storage, sent))
    (hnew : RawNode.new env c storage = .ok node) : Fortified a f { node, sent } := by
  obtain ⟨raft, hraft, h⟩ := bind_eq_ok.mp hnew
  cases h
  have hst := (newRaft_started env c storage).elim hraft
  constructor
  case leading =>
    refine ⟨?_, ?_, ?_⟩
    · show LeadOk a f raft.term raft.lead raft.leadEpoch
      rw [hst.term, hst.lead, hst.leadEpoch]
      exact hok
    · rw [hst.state]
      nofun
    · rw [hst.state]
      nofun
  case durable =>
    show LeadKept a f (raft.raftLog.storage, sent)
    rw [hst.frame.1]
    exact hok

/-- Unless a message of a higher term that should not be heeded meets a node in its
promise, no assertion is broken on the way. -/
theorem not_broken {env : Env} (h : Fortified a env.epochs mb) (hv : Voting a mb.raft)
    {inp : Message} {r : RaftNode} (hin : a.Heard inp)
    (huniq : ∀ c c' t, a.Elected c t → a.Elected c' t → c = c') (hne : a.cs.voters ≠ [])
    (hcautious : mb.raft.Supports env → mb.raft.Raises inp →
      isMsgFromLeader inp.type = true ∨ inp.type = .vote)
    (hs : RaftNode.Steps env inp mb.raft r) (x : FortifyAssertion) : ¬ r.Broken env inp x := by
  have hl := h.leading.steps hv hin huniq hne hs
  intro hb
  cases x with
  | leadEpochWithoutLead => exact (hl.ok.epoch hb.1).1 hb.2
  | epochRegressed => exact absurd (hl.ok.epoch hb.1).2 (not_le.mpr hb.2)
  | resetWhileSupporting =>
    obtain ⟨hsup, ⟨hr, hnl, hnv⟩ | hst⟩ := hb
    · obtain ⟨hsup', hr'⟩ := h.leading.steps_supports hv hin huniq hne hs hsup hr
      rcases hcautious hsup' hr' with hl | hv
      · rw [hnl] at hl
        cases hl
      · exact hnv hv
    · exact hsup.1 (hl.campaigning hst)
  | _ => exact hb

end Fortified

namespace Act

/-- The store liveness that an action consults. -/
def env : Act → Option Env
  | .step env _ => some env
  | .tick env => some env
  | .restart env _ => some env
  | .ready => none
  | .persist => none

/-- The epochs of `SupportFor` have not regressed since `seen`. -/
def Regular (seen : PeerID → Epoch) (a : Act) : Prop :=
  ∀ env ∈ a.env, ∀ l, seen l ≤ env.epochs l

/-- The epochs seen after an action. -/
def observe (seen : PeerID → Epoch) (a : Act) : PeerID → Epoch :=
  (a.env.map Env.epochs).getD seen

/-- No message of a higher term that is neither from a leader nor a vote request
meets a node that supports another one. -/
def Cautious (r : RaftNode) : Act → Prop
  | .step env m => r.Supports env → r.Raises m → isMsgFromLeader m.type = true ∨ m.type = .vote
  | _ => True

instance (r : RaftNode) (env : Env) : Decidable (r.Supports env) :=
  inferInstanceAs (Decidable (r.leadEpoch ≠ 0 ∧ env.supportFor r.lead = (r.leadEpoch, true) ∧
    r.lead ≠ r.id))

instance (r : RaftNode) (m : Message) : Decidable (r.Raises m) :=
  decidable_of_iff (r.term < m.term ∧ m.type ≠ .preVote ∧
      ¬ (m.type = .preVoteResp ∧ m.reject = false))
    ⟨fun h => ⟨h.1, h.2.1, h.2.2⟩, fun h => ⟨h.1, h.2, h.3⟩⟩

instance (r : RaftNode) : ∀ a : Act, Decidable (Cautious r a)
  | .step env m => inferInstanceAs (Decidable (r.Supports env → r.Raises m →
      isMsgFromLeader m.type = true ∨ m.type = .vote))
  | .tick _ => isTrue trivial
  | .ready => isTrue trivial
  | .persist => isTrue trivial
  | .restart _ _ => isTrue trivial

theorem Regular.le_observe {seen : PeerID → Epoch} {a : Act} (h : a.Regular seen) (l : PeerID) :
    seen l ≤ a.observe seen l := by
  unfold observe
  cases henv : a.env with
  | none => exact le_rfl
  | some env => exact h env henv l

end Act

end Member

/-! ## Clusters -/

namespace Network

open Member

section Runs

variable [Codec] (ids : Finset PeerID) (start : PeerID → MemoryStorage)
  (C : RaftNode → Act → Prop)

/-- The clusters that runs reach in which every action meets `C`, and the epochs
that the store liveness of each member has reported by then. -/
inductive Observes : Network → (PeerID → PeerID → Epoch) → Prop
  | init {n : Network} {seen : PeerID → PeerID → Epoch} (h : Init ids start n) : Observes n seen
  | act {n : Network} {seen : PeerID → PeerID → Epoch} {i : PeerID} {a : Act} {mb : Member}
      (h : Observes n seen) (hi : i ∈ ids) (hl : n.Legal ids i a) (hreg : a.Regular (seen i))
      (hc : C (n i).raft a) (ha : (n i).act a = .ok mb) :
      Observes (Function.update n i mb) (Function.update seen i (a.observe (seen i)))

variable [∀ r a, Decidable (C r a)]

/-- Store liveness reports the same epochs all along. -/
theorem observes_of_perform {env : Env} : ∀ {as : List (PeerID × Act)} {n n' : Network},
    (∀ p ∈ as, p.2.env = none ∨ p.2.env = some env) →
    Observes ids start C n (fun _ => env.epochs) → perform ids C n as = some n' →
    Observes ids start C n' fun _ => env.epochs
  | [], n, n', _, hn, h => by
    cases h
    exact hn
  | (i, a) :: as, n, n', henv, hn, h => by
    unfold perform at h
    split_ifs at h with hl
    obtain ⟨hi, hl, hc⟩ := hl
    have hobs : a.observe env.epochs = env.epochs := by
      unfold Act.observe
      rcases henv _ List.mem_cons_self with he | he <;> rw [he] <;> rfl
    have hreg : a.Regular env.epochs := by
      intro e he l
      rcases henv _ List.mem_cons_self with hnone | hsome
      · rw [hnone] at he
        cases he
      · rw [hsome] at he
        cases he
        exact le_rfl
    cases ha : (n i).act a with
    | error p =>
      rw [ha] at h
      cases h
    | ok mb =>
      rw [ha] at h
      have hstep := Observes.act hn hi hl hreg hc ha
      rw [hobs, update_eq_self i fun _ => env.epochs] at hstep
      exact observes_of_perform (fun p hp => henv p (List.mem_cons_of_mem _ hp)) hstep h

end Runs

section Invariant

variable {ids : Finset PeerID} {cs : ConfState} {start : PeerID → MemoryStorage}
  {C : RaftNode → Act → Prop} {n : Network} {seen : PeerID → PeerID → Epoch}

/-- What every run keeps. -/
structure Promises (ids : Finset PeerID) (cs : ConfState) (n : Network)
    (seen : PeerID → PeerID → Epoch) : Prop where
  ballots : Ballots ids cs n
  fortified : ∀ i ∈ ids, (n i).Fortified ((n i).around i cs (n.Granted ids)) (seen i)

theorem Promises.unique (h : Promises ids cs n seen) (i : PeerID) (c c' : PeerID) (t : Nat)
    (hc : ((n i).around i cs (n.Granted ids)).Elected c t)
    (hc' : ((n i).around i cs (n.Granted ids)).Elected c' t) : c = c' :=
  h.ballots.elected_unique ⟨rfl, rfl⟩ ⟨rfl, rfl⟩ hc hc'

variable [Codec]

theorem Promises.act (h : Promises ids cs n seen) (hne : cs.voters ≠ []) {i : PeerID} {a : Act}
    {mb : Member} (hi : i ∈ ids) (hl : n.Legal ids i a) (hreg : a.Regular (seen i))
    (ha : (n i).act a = .ok mb) :
    mb.Fortified ((n i).around i cs (n.Granted ids)) (a.observe (seen i)) := by
  have hf := (h.fortified i hi).mono rfl (fun _ _ _ hg => hg) hreg.le_observe
  have hv := (h.ballots i hi).voting
  cases a with
  | step env m =>
    obtain ⟨r, hr, ha⟩ := bind_eq_ok.mp ha
    cases ha
    exact Fortified.call hf hv (h.ballots.heard hi hl) (h.unique i) hne
      ((RaftNode.step_walks _ _ _).elim hr).1
  | tick env =>
    obtain ⟨r, hr, ha⟩ := bind_eq_ok.mp ha
    cases ha
    exact Fortified.call hf hv (h.ballots.heard hi (hears_hup ids n i)) (h.unique i) hne
      ((RaftNode.tick_walks _ _ _).elim hr).1
  | ready =>
    obtain ⟨rd, hr, ha⟩ := bind_eq_ok.mp ha
    cases ha
    obtain ⟨l, hrd⟩ := Member.readied hr
    exact hf.ready hrd
  | persist =>
    unfold Member.act at ha
    cases hq : (n i).queue with
    | nil =>
      rw [hq] at ha
      cases ha
      exact hf
    | cons w queue =>
      rw [hq] at ha
      obtain ⟨ms, hms, ha⟩ := bind_eq_ok.mp ha
      cases ha
      exact hf.persist hq hms
  | restart env c =>
    obtain ⟨node, hnode, ha⟩ := bind_eq_ok.mp ha
    cases ha
    exact Fortified.init hf.durable.head hnode

/-- What one step keeps. -/
theorem Promises.step (h : Promises ids cs n seen) (hne : cs.voters ≠ []) {i : PeerID} {a : Act}
    {mb : Member} (hi : i ∈ ids) (hl : n.Legal ids i a) (hreg : a.Regular (seen i))
    (ha : (n i).act a = .ok mb) :
    Promises ids cs (update n i mb) (update seen i (a.observe (seen i))) := by
  have hstep : Step ids n (update n i mb) := .act hi hl ha
  have hmono := hstep.sent ids
  have hmb := h.act hne hi hl hreg ha
  refine ⟨h.ballots.step hne hstep, fun j hj => ?_⟩
  by_cases hij : j = i
  · subst hij
    rw [update_self, update_self]
    exact hmb.mono rfl (fun v c t hg => hg.mono hmono) fun _ => le_rfl
  · rw [update_of_ne hij, update_of_ne hij]
    exact (h.fortified j hj).mono rfl (fun v c t hg => hg.mono hmono) fun _ => le_rfl

/-- What a whole run keeps. -/
theorem Observes.promises (h : Observes ids start C n seen)
    (hcs : ∀ i ∈ ids, (start i).snapshot.metadata.confState = cs) (hne : cs.voters ≠ [])
    (hlead : ∀ i ∈ ids, (start i).hardState.lead = None ∧ (start i).hardState.leadEpoch = 0) :
    Promises ids cs n seen := by
  induction h with
  | init h =>
    refine ⟨.init h hcs, fun i hi => ?_⟩
    obtain ⟨env, c, node, -, hnew, hmb⟩ := h i hi
    obtain ⟨hnone, hzero⟩ := hlead i hi
    rw [hmb]
    exact Fortified.init ⟨fun hl => absurd hnone hl, fun he => absurd hzero he⟩ hnew
  | act _ hi hl hreg _ ha ih => exact ih.step hne hi hl hreg ha

/-- Calls into the nodes of a cluster do not stop in a fortification assertion. -/
theorem Promises.calm (h : Promises ids cs n seen) (hne : cs.voters ≠ []) {i : PeerID} {a : Act}
    (hi : i ∈ ids) (hl : n.Legal ids i a) (hreg : a.Regular (seen i))
    (hc : a.Cautious (n i).raft) : Calm ((n i).act a) := by
  have hf := (h.fortified i hi).mono rfl (fun _ _ _ hg => hg) hreg.le_observe
  have hv := (h.ballots i hi).voting
  cases a with
  | step env m =>
    refine .bind ?_ fun _ => .pure _
    refine (RaftNode.step_walks _ _ _).mono (fun p hp x hx => ?_) fun _ _ => trivial
    obtain ⟨r, hr, hb⟩ := hp x hx
    exact Fortified.not_broken hf hv (h.ballots.heard hi hl) (h.unique i) hne hc hr x hb
  | tick env =>
    refine .bind ?_ fun _ => .pure _
    refine (RaftNode.tick_walks env { type := .hup } _).mono (fun p hp x hx => ?_)
      fun _ _ => trivial
    obtain ⟨r, hr, hb⟩ := hp x hx
    refine Fortified.not_broken hf hv (h.ballots.heard hi (hears_hup ids n i)) (h.unique i) hne
      (fun _ hraises => ?_) hr x hb
    exact absurd hraises.higher (Nat.not_lt_zero _)
  | ready => exact .bind (calm_ready _) fun _ => .pure _
  | persist =>
    unfold Member.act
    cases (n i).queue with
    | nil => exact .pure _
    | cons w queue => exact .bind (calm_persist _ _) fun _ => .pure _
  | restart env c => exact .bind (calm_new _ _ _) fun _ => .pure _

end Invariant

end Network

open Network Member in
/-- In every run in which no message of a higher term that is neither from a
leader nor a vote request meets a node that supports another one, a lead epoch is
only set with a leader, and no action of a member stops in an assertion of the
fortification protocol. -/
theorem fortification_asserts_hold [Codec] {ids : Finset PeerID} {cs : ConfState}
    {start : PeerID → MemoryStorage} {n : Network} {seen : PeerID → PeerID → Epoch}
    (hcs : ∀ i ∈ ids, (start i).snapshot.metadata.confState = cs) (hne : cs.voters ≠ [])
    (hlead : ∀ i ∈ ids, (start i).hardState.lead = None ∧ (start i).hardState.leadEpoch = 0)
    (hr : Observes ids start Act.Cautious n seen) {i : PeerID} (hi : i ∈ ids) :
    ((n i).raft.leadEpoch ≠ 0 → (n i).raft.lead ≠ None) ∧
      ∀ a, n.Legal ids i a → a.Regular (seen i) → a.Cautious (n i).raft →
        ∀ x, (n i).act a ≠ .error (.fortify x) := by
  have hp := hr.promises hcs hne hlead
  refine ⟨fun he => ((hp.fortified i hi).leading.ok.epoch he).1, ?_⟩
  intro a hl hreg hc x hx
  exact (hp.calm hne hi hl hreg hc).stop hx x rfl

/-- Every member supports every other one, in epoch 1. -/
def supportAll : Env where
  supportFor := fun _ => (1, true)
  supportFromEnabled := true

open Network in
/-- Member 3 asks for pre-votes; member 2 is at term 2 by then and rejects. Before
the rejection arrives, 3 helps to elect 1 at term 1 and fortifies it. -/
def fortifyOne : List (PeerID × Member.Act) :=
  [(3, .restart supportAll { trioSettings 3 with preVote := true }),
   (3, .step supportAll { type := .hup }), (3, .ready), (3, .persist),
   (2, .step supportAll { type := .hup }), (2, .step supportAll { type := .hup }),
   (2, .step supportAll { type := .preVote, dst := 2, src := 3, term := 1 }),
   (2, .ready), (2, .persist),
   (1, .step supportAll { type := .hup }), (1, .ready), (1, .persist),
   (3, .step supportAll { type := .vote, dst := 3, src := 1, term := 1 }),
   (3, .ready), (3, .persist),
   (1, .step supportAll { type := .voteResp, dst := 1, src := 1, term := 1 }),
   (1, .step supportAll { type := .voteResp, dst := 1, src := 3, term := 1 }), (1, .ready),
   (3, .step supportAll { type := .fortifyLeader, dst := 3, src := 1, term := 1 })]

theorem fortifyOne_env : ∀ p ∈ fortifyOne, p.2.env = none ∨ p.2.env = some supportAll := by
  simp [fortifyOne, Member.Act.env]

/-- The rejection that is on its way to member 3. -/
def lateRejection : Message where
  type := .preVoteResp
  dst := 3
  src := 2
  term := 2
  reject := true

open Network Member in
/-- A node in its promise panics when a late rejection of a pre-vote reaches it. -/
theorem fortification_asserts_late_rejection : let _ := wireCodec
    ∃ n seen, Observes {1, 2, 3} (fun _ => trioStorage) (fun _ _ => True) n seen ∧
      n.Legal {1, 2, 3} 3 (.step supportAll lateRejection) ∧
      (Act.step supportAll lateRejection).Regular (seen 3) ∧
      (n 3).act (.step supportAll lateRejection) = .error (.fortify .resetWhileSupporting) := by
  intro _
  have hrun : ((trio.perform {1, 2, 3} (fun _ _ => True) fortifyOne).map fun n =>
      (decide (n.Legal {1, 2, 3} 3 (.step supportAll lateRejection)),
        ((n 3).act (.step supportAll lateRejection)).map fun _ => ())) =
      some (true, .error (.fortify .resetWhileSupporting)) := by decide +kernel
  obtain ⟨n, hn, hobs⟩ := Option.map_eq_some_iff.mp hrun
  obtain ⟨hl, hact⟩ := Prod.mk.inj hobs
  refine ⟨n, _, observes_of_perform _ _ _ fortifyOne_env (.init trio_init) hn,
    of_decide_eq_true hl, ?_, map_eq_error.mp hact⟩
  intro env henv l
  cases henv
  exact le_rfl

open Network Member in
/-- Member 3 supports a fortified leader here. -/
theorem fortification_asserts_hold_trio : let _ := wireCodec
    ∃ n seen, Observes {1, 2, 3} (fun _ => trioStorage) Act.Cautious n seen ∧
      (n 3).raft.leadEpoch = 1 ∧ (n 3).raft.lead ≠ None ∧
      ∀ a, n.Legal {1, 2, 3} 3 a → a.Regular (seen 3) → a.Cautious (n 3).raft →
        ∀ x, (n 3).act a ≠ .error (.fortify x) := by
  intro _
  have hrun : ((trio.perform {1, 2, 3} Act.Cautious fortifyOne).map fun n =>
      (n 3).raft.leadEpoch) = some 1 := by decide +kernel
  obtain ⟨n, hn, hepoch⟩ := Option.map_eq_some_iff.mp hrun
  have hobs := observes_of_perform _ _ _ fortifyOne_env (.init trio_init) hn
  obtain ⟨hlead, hcalm⟩ := fortification_asserts_hold (fun _ _ => rfl) (List.cons_ne_nil _ _)
    (fun _ _ => ⟨rfl, rfl⟩) hobs (i := 3) (by decide)
  refine ⟨n, _, hobs, hepoch, hlead ?_, hcalm⟩
  rw [hepoch]
  decide

end Cockroach.Raft
