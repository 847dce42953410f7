import Cockroach.Raft.Micro

/-!
# Every call is a sequence of small steps

The walk over the functions of `raft.go`: one lemma a function, in the order of
the source, each saying that the function either returns a node that small steps
lead to, or stops in the way `Fails` allows. The results are `step_walks`,
`tick_walks` and `applyConfChange_walks`; nothing else needs to know the code.
-/

namespace Cockroach.Raft

open Lib RaftLog

/-- The panics of the fortification assertions. -/
def Panic.isFortify : Panic → Bool
  | .fortify _ => true
  | _ => false

variable {p : Panic}

theorem Panic.ne_fortify (h : p.isFortify = false) : ∀ a, p ≠ .fortify a := by
  rintro a rfl
  cases h

/-- The computation does not stop in a fortification assertion. -/
def Calm {α : Type} (x : Except Panic α) : Prop :=
  Sat x (fun p => ∀ a, p ≠ .fortify a) fun _ => True

variable {c : Prop}

namespace Calm

variable {α β : Type}

theorem pure (a : α) : Calm (pure a : Except Panic α) := trivial

theorem throw (h : p.isFortify = false) : Calm (throw p : Except Panic α) := Panic.ne_fortify h

theorem assertTrue [Decidable c] (h : p.isFortify = false) : Calm (assertTrue c p) :=
  sat_assertTrue (fun _ => Panic.ne_fortify h) fun _ => trivial

theorem bind {x : Except Panic α} {f : α → Except Panic β} (hx : Calm x)
    (hf : ∀ a, Calm (f a)) : Calm (x >>= f) :=
  Sat.bind hx fun a _ => hf a

theorem ite [Decidable c] {x y : Except Panic α} (hx : Calm x) (hy : Calm y) :
    Calm (if c then x else y) :=
  Sat.ite (fun _ => hx) fun _ => hy

end Calm

/-! ## The log and the tracker never stop in a fortification assertion -/

section CalmLog

variable {l : RaftLog}

theorem calm_commitTo (mark : LogMark) : Calm (l.commitTo mark) := by
  unfold commitTo
  exact .ite (.bind (.assertTrue rfl) fun _ => .pure _) (.pure _)

theorem calm_appliedTo (i size : Nat) : Calm (l.appliedTo i size) := by
  unfold appliedTo
  exact .bind (.assertTrue rfl) fun _ => .pure _

theorem calm_lastEntryID : Calm l.lastEntryID := by
  unfold lastEntryID
  cases l.term l.lastIndex with
  | ok t => exact .pure _
  | error err => exact .throw rfl

theorem calm_isUpToDate (id : EntryID) : Calm (l.isUpToDate id) := by
  unfold isUpToDate
  exact .bind calm_lastEntryID fun _ => .pure _

theorem calm_stableTo (mark : LogMark) : Calm (l.stableTo mark) := by
  unfold stableTo Unstable.stableTo
  refine .bind ?_ fun _ => .pure _
  exact .ite (.pure _) (.ite (.pure _) (.ite (.pure _) (.bind (.assertTrue rfl) fun _ => .pure _)))

theorem calm_truncateAndAppend (u : Unstable) (a : LogSlice) : Calm (u.truncateAndAppend a) := by
  unfold Unstable.truncateAndAppend
  refine .ite (.pure _) (.ite (.pure _) (.ite (.pure _) (.ite (.pure _) ?_)))
  exact .bind (.assertTrue rfl) fun _ => .pure _

theorem calm_maybeAppend (a : LogSlice) : Calm (l.maybeAppend a) := by
  unfold maybeAppend
  cases l.matchSlice a with
  | none => exact .pure _
  | some m =>
    dsimp only
    cases (a.forward m).entries with
    | nil => exact .pure _
    | cons e es =>
      refine .bind (.assertTrue rfl) fun _ => ?_
      exact .bind (calm_truncateAndAppend _ _) fun _ => .pure _

variable [Codec]

theorem calm_slice (lo hi maxSize : Nat) : Calm (l.slice lo hi maxSize) := by
  refine (l.slice_sat lo hi maxSize).mono ?_ fun _ _ => trivial
  rintro p (rfl | rfl | rfl | rfl) a <;> exact Panic.noConfusion

theorem calm_entries (i maxSize : Nat) : Calm (l.entries i maxSize) := by
  unfold entries
  exact .ite (.pure _) (calm_slice _ _ _)

theorem calm_scanConfChange (hi : Nat) : ∀ fuel lo, Calm (RaftNode.scanConfChange l hi fuel lo)
  | 0, _ => .pure _
  | fuel + 1, lo => by
    unfold RaftNode.scanConfChange
    refine .ite (.bind (calm_slice _ _ _) fun ents => ?_) (.pure _)
    cases ents with
    | error err => exact .throw rfl
    | ok ents =>
      refine .ite (.throw rfl) (.ite (.pure _) ?_)
      exact calm_scanConfChange hi fuel _

end CalmLog

theorem calm_sentEntries (pr : Progress) (entries bytes : Nat) :
    Calm (pr.sentEntries entries bytes) := by
  unfold Progress.sentEntries Inflights.add
  refine .ite (.bind (.bind (.assertTrue rfl) fun _ => ?_) fun _ => .pure _)
    (.pure _)
  exact .bind (.assertTrue rfl) fun _ => .pure _

namespace RaftNode

/-! ## Rules for walking down a function -/

section Rules

variable [Codec] {env : Env} {inp : Message} {r r' : RaftNode} {α β γ : Type}
  {x : Except Panic α} {node : α → RaftNode} {Q : α → Prop}

/-- The node of a computation that returns nothing else. -/
abbrev self (r : RaftNode) : RaftNode := r

/-- The computation, started at `r`, stops as `Fails` allows or returns a node
that small steps from `r` lead to. -/
def Walks (env : Env) (inp : Message) (r : RaftNode) (x : Except Panic α) (node : α → RaftNode)
    (Q : α → Prop) : Prop :=
  Sat x (Fails env inp r) fun a => Steps env inp r (node a) ∧ Q a

/-- A walk of which nothing more is said. -/
abbrev Goes (env : Env) (inp : Message) (r : RaftNode) (x : Except Panic α)
    (node : α → RaftNode) : Prop :=
  Walks env inp r x node fun _ => True

theorem Fails.of_calm (h : ∀ a, p ≠ .fortify a) : Fails env inp r p := fun a hp => absurd hp (h a)

theorem Fails.after (hs : Steps env inp r r') (h : Fails env inp r' p) : Fails env inp r p := by
  intro a hp
  obtain ⟨r'', hr, hb⟩ := h a hp
  exact ⟨r'', hs.trans hr, hb⟩

namespace Walks

theorem ret {a : α} (hs : Steps env inp r (node a)) (hq : Q a) :
    Walks env inp r (pure a) node Q := ⟨hs, hq⟩

theorem stay {a : α} (h : node a = r) : Goes env inp r (pure a) node :=
  ret (h ▸ .refl) trivial

theorem stop (h : p.isFortify = false) :
    Walks env inp r (throw p : Except Panic α) node Q := Fails.of_calm (Panic.ne_fortify h)

/-- The computation may start after some small steps. -/
theorem after {q : RaftNode} (hs : Steps env inp r q) (h : Walks env inp q x node Q) :
    Walks env inp r x node Q :=
  Sat.mono h (fun _ hp => hp.after hs) fun _ ha => ⟨hs.trans ha.1, ha.2⟩

theorem imp {Q' : α → Prop} (h : Walks env inp r x node Q) (hq : ∀ a, Q a → Q' a) :
    Walks env inp r x node Q' :=
  Sat.imp h fun a ha => ⟨ha.1, hq a ha.2⟩

theorem any (h : Walks env inp r x node Q) : Goes env inp r x node :=
  h.imp fun _ _ => trivial

variable {node' : β → RaftNode} {Q' : β → Prop}

theorem bind {f : α → Except Panic β}
    (hx : Walks env inp r x node Q) (hf : ∀ a, Q a → Walks env inp (node a) (f a) node' Q') :
    Walks env inp r (x >>= f) node' Q' :=
  Sat.bind hx fun a ha => (hf a ha.2).after ha.1

/-- A computation that changes no node. -/
theorem calm {f : α → Except Panic β} (hx : Calm x)
    (hf : ∀ a, x = .ok a → Walks env inp r (f a) node' Q') :
    Walks env inp r (x >>= f) node' Q' := by
  cases hr : x with
  | error p => rw [hr] at hx; exact Fails.of_calm hx
  | ok a => exact hf a hr

/-- A computation whose result is known. -/
theorem spec {f : α → Except Panic β} (hx : Sat x (fun p => ∀ a, p ≠ .fortify a) Q)
    (hf : ∀ a, Q a → Walks env inp r (f a) node' Q') : Walks env inp r (x >>= f) node' Q' :=
  Sat.bind (hx.mono (fun _ hp => .of_calm hp) fun _ h => h) hf

theorem assert [Decidable c] {f : Unit → Except Panic β}
    (hp : p.isFortify = false) (hf : c → Walks env inp r (f ()) node' Q') :
    Walks env inp r (assertTrue c p >>= f) node' Q' :=
  sat_assert_bind (fun _ => Fails.of_calm (Panic.ne_fortify hp)) hf

theorem ite [Decidable c] {y : Except Panic α} (ht : c → Walks env inp r x node Q)
    (hf : ¬ c → Walks env inp r y node Q) : Walks env inp r (if c then x else y) node Q :=
  Sat.ite ht hf

/-- A loop whose passes walk and keep `I`. -/
theorem foldlM {f : RaftNode → γ → Except Panic RaftNode} {I : RaftNode → Prop}
    (hf : ∀ r, I r → ∀ c, Walks env inp r (f r c) self I) :
    ∀ {l : List γ} {r : RaftNode}, I r → Walks env inp r (l.foldlM f r) self I
  | [], _, hr => ret .refl hr
  | c :: l, r, hr => by
    rw [List.foldlM_cons]
    exact bind (hf r hr c) fun r' hr' => foldlM hf hr'

end Walks

end Rules

/-! ## Nodes that differ in nothing that matters -/

namespace SameCore

variable {r r' r'' : RaftNode}

theorem refl (r : RaftNode) : SameCore r r :=
  ⟨rfl, rfl, rfl, rfl, rfl, rfl, rfl, rfl, rfl, fun _ => rfl⟩

theorem trans (h : SameCore r r') (h' : SameCore r' r'') : SameCore r r'' where
  id := h'.id.trans h.id
  term := h'.term.trans h.term
  vote := h'.vote.trans h.vote
  raftLog := h'.raftLog.trans h.raftLog
  config := h'.config.trans h.config
  votes := h'.votes.trans h.votes
  state := h'.state.trans h.state
  lead := h'.lead.trans h.lead
  leadEpoch := h'.leadEpoch.trans h.leadEpoch
  acked n := (h'.acked n).trans (h.acked n)

/-- Timers and the bookkeeping of a leader do not count. -/
theorem rest (r : RaftNode) {transferee pending size election heartbeat : Nat} : SameCore r { r with
      leadTransferee := transferee
      pendingConfIndex := pending
      uncommittedSize := size
      electionElapsed := election
      heartbeatElapsed := heartbeat } :=
  ⟨rfl, rfl, rfl, rfl, rfl, rfl, rfl, rfl, rfl, fun _ => rfl⟩

theorem post (r : RaftNode) (m : Message) : SameCore r (r.post m) := by
  unfold RaftNode.post
  split
  · exact ⟨rfl, rfl, rfl, rfl, rfl, rfl, rfl, rfl, rfl, fun _ => rfl⟩
  · exact ⟨rfl, rfl, rfl, rfl, rfl, rfl, rfl, rfl, rfl, fun _ => rfl⟩

end SameCore

theorem post_trk (r : RaftNode) (m : Message) : (r.post m).trk = r.trk := by
  unfold post
  split <;> rfl

theorem ackedIndex_insert (trk : ProgressMap) (id n : PeerID) (pr : Progress) :
    ProgressMap.ackedIndex (trk.insert id pr) n =
      if n = id then some pr.matchIdx else trk.ackedIndex n := by
  unfold ProgressMap.ackedIndex
  rw [Std.ExtTreeMap.getElem?_insert]
  by_cases h : n = id
  · subst h
    simp
  · have hne : ¬ compare id n = .eq := by
      intro he
      exact h (Nat.compare_eq_eq.mp he).symm
    rw [if_neg hne, if_neg h]

theorem sameCore_setProgress {r : RaftNode} {id : PeerID} {pr pr' : Progress}
    (h : r.trk[id]? = some pr) (hm : pr'.matchIdx = pr.matchIdx) :
    SameCore r (r.setProgress id pr') := by
  refine ⟨rfl, rfl, rfl, rfl, rfl, rfl, rfl, rfl, rfl, fun n => ?_⟩
  change ProgressMap.ackedIndex (r.trk.insert id pr') n = _
  rw [ackedIndex_insert]
  by_cases hn : n = id
  · subst hn
    rw [if_pos rfl, ProgressMap.ackedIndex, h, hm]
    rfl
  · rw [if_neg hn]

theorem maybeUpdateSentCommit_matchIdx (pr : Progress) (commit : Nat) :
    (pr.maybeUpdateSentCommit commit).matchIdx = pr.matchIdx := by
  unfold Progress.maybeUpdateSentCommit
  split <;> rfl

theorem sentEntries_matchIdx {pr pr' : Progress} {entries bytes : Nat}
    (h : pr.sentEntries entries bytes = .ok pr') : pr'.matchIdx = pr.matchIdx := by
  unfold Progress.sentEntries at h
  split at h
  · obtain ⟨inflights, -, hp⟩ := bind_eq_ok.mp h
    cases hp
    rfl
  · cases h
    rfl

/-! ## Sending -/

theorem sat_assert_pure {α : Type} [Decidable c] {a : α} (hp : p.isFortify = false) :
    Sat (assertTrue c p >>= fun _ => pure a) (fun p => ∀ a, p ≠ .fortify a) (· = a) :=
  sat_assert_bind (fun _ => Panic.ne_fortify hp) fun _ => rfl

/-- `send` queues the stamped message. -/
theorem send_spec (r : RaftNode) (m : Message) :
    Sat (r.send m) (fun p => ∀ a, p ≠ .fortify a) fun r' => r' = r.post (r.stamped m) := by
  have hterm : Sat (r.attachTerm (if m.src = None then { m with src := r.id } else m))
      (fun p => ∀ a, p ≠ .fortify a) fun m' => m' = r.stamped m := by
    unfold attachTerm stamped
    obtain ⟨type, _⟩ := m
    split_ifs with h
    · cases type <;> exact sat_assert_pure rfl
    · cases type <;> exact sat_assert_pure rfl
  refine Sat.bind hterm ?_
  rintro _ rfl
  unfold post
  refine Sat.ite (fun h => ?_) fun h => ?_
  · rw [if_pos h]
    exact rfl
  · rw [if_neg h]
    exact sat_assert_pure rfl

/-- A vote without a term cannot be sent. -/
theorem send_vote_term (r : RaftNode) (m : Message) (hm : m.type = .voteResp) :
    Returns (r.send m) fun _ => m.term ≠ 0 := by
  refine Sat.bind (P := fun _ => m.term ≠ 0) ?_ fun _ h =>
    (returns_iff.mpr fun _ _ => h : Returns _ fun _ => m.term ≠ 0)
  obtain ⟨type, _⟩ := m
  obtain rfl : type = .voteResp := hm
  unfold attachTerm
  split_ifs
  · exact sat_assert_bind (fun _ => trivial) fun h => h
  · exact sat_assert_bind (fun _ => trivial) fun h => h

section Sends

variable [Codec] {env : Env} {inp : Message} {r : RaftNode}

theorem rest_steps {transferee pending size election heartbeat : Nat} : Steps env inp r { r with
      leadTransferee := transferee
      pendingConfIndex := pending
      uncommittedSize := size
      electionElapsed := election
      heartbeatElapsed := heartbeat } :=
  .single (.quiet (.rest r) rfl rfl)

variable {m : Message} {pr : Progress}

theorem sent_walks {r₀ : RaftNode} (h : Steps env inp r₀ (r.post (r.stamped m))) :
    Walks env inp r₀ (r.send m) self (· = r.post (r.stamped m)) := by
  refine (send_spec r m).mono (fun _ hp => .of_calm hp) ?_
  rintro _ rfl
  exact ⟨h, rfl⟩

/-- Queueing a message that may be sent is a small step. -/
theorem send_walks (h : MaySend inp r (r.stamped m)) :
    Walks env inp r (r.send m) self (· = r.post (r.stamped m)) :=
  sent_walks (.single (.send h))

/-- A send that ends a function. -/
theorem send_last {r₀ : RaftNode} (hs : SameCore r₀ r)
    (h : MaySend inp r (r.stamped m)) : Walks env inp r (r.send m) self (SameCore r₀) := by
  refine (send_walks h).imp ?_
  rintro _ rfl
  exact hs.trans (.post _ _)

/-- A change of a progress that keeps its match is a small step. -/
theorem setProgress_steps {id : PeerID} (h : r.trk[id]? = some pr)
    (pr' : Progress) (hm : pr'.matchIdx = pr.matchIdx) :
    Steps env inp r (r.setProgress id pr') :=
  .single (.quiet (sameCore_setProgress h hm) rfl rfl)

/-- A progress is often updated right after a message to its peer. -/
theorem post_setProgress {dst : PeerID} {pr pr' : Progress}
    (hpr : r.trk[dst]? = some pr) (hm : pr'.matchIdx = pr.matchIdx) :
    Steps env inp (r.post m) ((r.post m).setProgress dst pr') ∧
      SameCore r ((r.post m).setProgress dst pr') := by
  have hpost : (r.post m).trk[dst]? = some pr := by rw [post_trk, hpr]
  exact ⟨setProgress_steps hpost pr' hm, (SameCore.post r m).trans (sameCore_setProgress hpost hm)⟩

section

variable (hl : r.state = .leader)
include hl

theorem maybeSendSnapshot_walks {dst : PeerID}
    (hpr : r.trk[dst]? = some pr) :
    Walks env inp r (r.maybeSendSnapshot dst pr) Prod.snd fun a => SameCore r a.2 := by
  unfold maybeSendSnapshot
  refine .ite (fun _ => .ret .refl (.refl r)) fun _ => ?_
  refine .assert rfl fun hne => ?_
  have hset :
      SameCore r (r.setProgress dst (pr.becomeSnapshot r.raftLog.snapshot.metadata.index)) :=
    sameCore_setProgress hpr rfl
  refine .after (.single (.quiet hset rfl rfl)) (.bind (send_last hset (.snap hl hne)) ?_)
  intro r' hr'
  exact .ret .refl hr'

theorem sendHeartbeat_walks (dst : PeerID) :
    Walks env inp r (r.sendHeartbeat env dst) self (SameCore r) := by
  unfold sendHeartbeat
  cases hpr : r.trk[dst]? with
  | none => exact .stop rfl
  | some pr =>
    dsimp only
    refine .bind (send_walks (.heartbeat hl ?_)) ?_
    · split
      · exact Nat.zero_le _
      · exact min_le_right _ _
    · rintro _ rfl
      have hmatch := maybeUpdateSentCommit_matchIdx pr
        (if env.advanceCommitViaMsgAppOnly then 0 else min pr.matchIdx r.raftLog.committed)
      obtain ⟨hstep, hsame⟩ := post_setProgress hpr hmatch
      exact .ret hstep hsame

theorem bcastHeartbeat_walks :
    Walks env inp r (r.bcastHeartbeat env) self (SameCore r) := by
  unfold bcastHeartbeat visit
  refine .foldlM (fun r' hr' id => .ite (fun _ => .ret .refl hr') fun _ => ?_) (.refl r)
  exact (sendHeartbeat_walks (hr'.state.trans hl) id).imp fun _ => hr'.trans

/-- A leader fortifies itself, and asks the others. -/
theorem sendFortify_walks (dst : PeerID) :
    Walks env inp r (r.sendFortify env dst) self (·.state = .leader) := by
  unfold sendFortify
  refine .ite (fun _ => .ret .refl hl) fun _ => .ite (fun _ => ?_) fun _ => ?_
  · by_cases hlive : (env.supportFor r.lead).2 = true
    · refine .ret ?_ ?_
      · rw [if_pos hlive]
        exact .single (.fortify (.inr hl) hlive)
      · rw [if_pos hlive]
        exact hl
    · refine .ret ?_ ?_
      · rw [if_neg hlive]
      · rw [if_neg hlive]
        exact hl
  · exact (send_last (.refl r) (.fortify hl)).imp fun _ hs => hs.state.trans hl

theorem bcastFortify_walks :
    Walks env inp r (r.bcastFortify env) self (·.state = .leader) := by
  unfold bcastFortify visit
  rw [assertTrue_of hl]
  exact Walks.foldlM (fun r' hr' id => sendFortify_walks hr' id) hl

end

theorem entriesToSend_eq {entries : List Entry} (h : r.entriesToSend pr = .ok (.ok entries)) :
    entries = [] ∨ pr.next - 1 = pr.next - 1 ∧
      r.raftLog.entries pr.next r.maxMsgSize = .ok (.ok entries) := by
  unfold entriesToSend at h
  split at h
  · exact .inr ⟨rfl, h⟩
  · cases h
    exact .inl rfl

theorem maybeSendAppend_walks (dst : PeerID) (hl : r.state = .leader) :
    Walks env inp r (r.maybeSendAppend env dst) Prod.snd fun a => SameCore r a.2 := by
  unfold maybeSendAppend
  cases hpr : r.trk[dst]? with
  | none => exact .stop rfl
  | some pr =>
    refine .ite (fun _ => .ret .refl (.refl r)) fun _ => ?_
    dsimp only
    cases hterm : r.raftLog.term (pr.next - 1) with
    | error err => exact maybeSendSnapshot_walks hl hpr
    | ok prevTerm =>
      have hcalm : Calm (r.entriesToSend pr) := by
        unfold entriesToSend
        exact .ite (calm_entries _ _) (.pure _)
      refine .calm hcalm fun ents hents => ?_
      cases ents with
      | error err => exact maybeSendSnapshot_walks hl hpr
      | ok entries =>
        refine .bind (send_walks (.app hl hterm (entriesToSend_eq hents))) ?_
        rintro _ rfl
        refine .calm (calm_sentEntries _ _ _) fun pr' hpr' => ?_
        have hmatch := (maybeUpdateSentCommit_matchIdx pr' r.raftLog.committed).trans
          (sentEntries_matchIdx hpr')
        obtain ⟨hstep, hsame⟩ := post_setProgress hpr hmatch
        exact .ret hstep hsame

theorem bcastAppend_walks (hl : r.state = .leader) :
    Walks env inp r (r.bcastAppend env) self (SameCore r) := by
  unfold bcastAppend visit
  refine .foldlM (fun r' hr' id => .ite (fun _ => .ret .refl hr') fun _ => ?_) (.refl r)
  refine .bind (maybeSendAppend_walks id (hr'.state.trans hl)) fun a ha => ?_
  exact .ret .refl (hr'.trans ha)

theorem sendAppends_walks (dst : PeerID) : ∀ (fuel : Nat) {r : RaftNode}, r.state = .leader →
      Walks env inp r (sendAppends env fuel r dst) self (SameCore r)
  | 0, _, _ => .stop rfl
  | fuel + 1, r, hl => by
    unfold sendAppends
    refine .bind (maybeSendAppend_walks dst hl) fun a ha => .ite (fun _ => ?_) fun _ => ?_
    · exact (sendAppends_walks dst fuel (ha.state.trans hl)).imp fun _ => ha.trans
    · exact .ret .refl ha

end Sends

end RaftNode

end Cockroach.Raft
