import Cockroach.Raft.Confchange

/-!
# Configuration changes keep quorums overlapping

The three entry points of the `Changer` are one operation `Change.run`. A
successful change returns a configuration that satisfies `checkInvariants`
again, whose progress map tracks exactly the members of the configuration if
the one it started from did (`Tracks`), and none of whose winning quorums
misses a winning quorum of the old configuration (`change_preserves`).

`checkInvariants` only asks that members have progress. It accepts a progress
map with strays, and a change hands strays on (`change_keeps_stray`); so
exactness of the result needs exactness of the input.
-/

namespace Cockroach.Raft.Confchange

open Lib List Finset Changer JointConfig

/-- The three ways to change a configuration. -/
inductive Change
  | simple (ccs : List ConfChangeSingle)
  | enterJoint (autoLeave : Bool) (ccs : List ConfChangeSingle)
  | leaveJoint

/-- `Changer.Simple`, `Changer.EnterJoint` or `Changer.LeaveJoint`. -/
def Change.run (c : Changer) : Change → ConfResult
  | .simple ccs => c.simple ccs
  | .enterJoint autoLeave ccs => c.enterJoint autoLeave ccs
  | .leaveJoint => c.leaveJoint

/-- The progress map tracks exactly the members of the configuration, and marks
exactly its learners. -/
structure Exact (cfg : Config) (trk : ProgressMap) : Prop where
  keys : ∀ id, id ∈ trk ↔ id ∈ cfg.voters.ids ∪ cfg.learnerIDs
  learner : ∀ id pr, trk[id]? = some pr → (pr.isLearner = true ↔ id ∈ cfg.learnerIDs)

/-- Exactness at one id, in terms of its memberships in `Voters[0]`, `Voters[1]`
and `Learners` and of its progress. A learner is no voter of the outgoing
configuration: this is what makes exactness inductive. -/
def TrackedAs (v0 v1 l : Prop) (pr : Option Progress) : Prop :=
  (pr.isSome = true ↔ v0 ∨ v1 ∨ l) ∧ (∀ p, pr = some p → (p.isLearner = true ↔ l)) ∧ (l → ¬ v1)

/-- What the steps of a change keep. -/
def Tracks (cfg : Config) (trk : ProgressMap) : Prop :=
  ∀ id, TrackedAs (id ∈ cfg.voters.incoming) (id ∈ cfg.voters.outgoing.getD ∅)
    (id ∈ cfg.learners.getD ∅) trk[id]?

/-! ## Reading the sets and the checks -/

@[simp] theorem getD_nilAwareAdd (m : Option (Finset PeerID)) (id : PeerID) :
    (nilAwareAdd m id).getD ∅ = insert id (m.getD ∅) := rfl

@[simp] theorem getD_nilAwareDelete (m : Option (Finset PeerID)) (id : PeerID) :
    (nilAwareDelete m id).getD ∅ = (m.getD ∅).erase id := by
  cases m with
  | none => rfl
  | some s =>
    unfold nilAwareDelete
    by_cases h : (s.erase id).card = 0
    · simp only [h, if_true, Option.getD_none, Option.getD_some]
      exact (card_eq_zero.mp h).symm
    · simp only [h, if_false, Option.getD_some]

theorem forEach_eq_ok {ids : Finset PeerID} {check : PeerID → Option ConfErr} {u : Unit} :
    forEach ids check = .ok u ↔ ∀ id ∈ ids, check id = none := by
  unfold forEach
  cases h : (ascending ids).findSome? check with
  | none => simpa [pure, Except.pure] using h
  | some e =>
    simp only [throw, throwThe, MonadExceptOf.throw, reduceCtorEq, false_iff, not_forall]
    obtain ⟨id, hid, hc⟩ := exists_of_findSome?_eq_some h
    exact ⟨id, mem_ascending.mp hid, by simp [hc]⟩

variable {cfg : Config} {trk : ProgressMap}

/-- The part of `checkInvariants` that later arguments use. -/
theorem checkInvariants_learners (h : checkInvariants cfg trk = .ok ()) :
    (∀ id ∈ cfg.learnerIDs, id ∉ cfg.voters.outgoingIDs) ∧
      (∀ id ∈ cfg.learnerIDs, id ∉ cfg.voters.incoming) ∧
      (∀ id ∈ cfg.learnersNextIDs, id ∈ cfg.voters.outgoingIDs) := by
  simp only [checkInvariants, bind_eq_ok, forEach_eq_ok] at h
  obtain ⟨_, _, _, _, _, _, _, hnext, _, hlearn, _⟩ := h
  refine ⟨fun id hid hout => ?_, fun id hid hin => ?_, fun id hid => ?_⟩
  · have := hlearn id hid
    simp [hout] at this
  · have := hlearn id hid
    split at this <;> simp at this
  · by_contra hout
    have := hnext id hid
    simp [hout] at this

/-- Only a joint configuration leaves by itself. -/
theorem checkInvariants_autoLeave
    (h : checkInvariants cfg trk = .ok ()) (hjoint : joint cfg = false) :
    cfg.autoLeave = false := by
  simp only [checkInvariants, bind_eq_ok] at h
  obtain ⟨_, _, _, _, _, _, _, _, _, _, h⟩ := h
  simp only [hjoint, Bool.not_false, if_true] at h
  cases ha : cfg.autoLeave with
  | false => rfl
  | true =>
    rw [ha] at h
    split at h
    · cases h
    · split at h <;> cases h

theorem checkAndReturn_eq_ok {cfg cfg' : Config} {trk trk' : ProgressMap} :
    checkAndReturn cfg trk = .ok (cfg', trk') ↔
      checkInvariants cfg trk = .ok () ∧ cfg' = cfg ∧ trk' = trk := by
  simp only [checkAndReturn, bind_eq_ok, pure, Except.pure, Except.ok.injEq, Prod.mk.injEq]
  constructor
  · rintro ⟨_, h, rfl, rfl⟩
    exact ⟨h, rfl, rfl⟩
  · rintro ⟨h, rfl, rfl⟩
    exact ⟨(), h, rfl, rfl⟩

/-! ## One step of a change

Every step changes memberships and progress at one id only, so `Tracks` is
checked at that id and is inherited everywhere else. -/

variable {cfg : Config} {trk : ProgressMap}

theorem Tracks.exact (h : Tracks cfg trk) : Exact cfg trk where
  keys id := by
    rw [← Std.ExtTreeMap.isSome_getElem?_iff_mem, (h id).1]
    simp [ids, outgoingIDs, Config.learnerIDs]
  learner id pr hpr := (h id).2.1 pr hpr

theorem Exact.tracks (h : Exact cfg trk)
    (hout : ∀ id ∈ cfg.learnerIDs, id ∉ cfg.voters.outgoingIDs) : Tracks cfg trk := by
  intro id
  refine ⟨?_, fun p hp => h.learner id p hp, hout id⟩
  rw [Std.ExtTreeMap.isSome_getElem?_iff_mem, h.keys]
  simp [ids, outgoingIDs, Config.learnerIDs]

theorem initProgress_tracks (c : Changer) (h : Tracks cfg trk) {id : PeerID}
    (hid : trk[id]? = none) (isLearner : Bool) :
    Tracks (c.initProgress cfg trk id isLearner).1 (c.initProgress cfg trk id isLearner).2 := by
  intro k
  by_cases hk : id = k
  · subst hk
    have hnew := h id
    rw [hid] at hnew
    cases isLearner <;>
      simp_all [TrackedAs, initProgress]
  · cases isLearner <;>
      simpa [initProgress, Std.ExtTreeMap.getElem?_insert, hk, Ne.symm hk] using h k

theorem makeVoter_tracks (c : Changer) (h : Tracks cfg trk) (id : PeerID) :
    Tracks (c.makeVoter cfg trk id).1 (c.makeVoter cfg trk id).2 := by
  unfold makeVoter
  cases hid : trk[id]? with
  | none => exact initProgress_tracks c h hid false
  | some pr =>
    intro k
    by_cases hk : id = k
    · subst hk
      simp [TrackedAs]
    · simpa [Std.ExtTreeMap.getElem?_insert, hk, Ne.symm hk] using h k

theorem remove_tracks (h : Tracks cfg trk) (id : PeerID) :
    Tracks (remove cfg trk id).1 (remove cfg trk id).2 := by
  unfold remove
  by_cases hid : id ∈ trk
  · have hcont : trk.contains id = true := hid
    simp only [hcont, Bool.not_true, Bool.false_eq_true, if_false]
    by_cases hout : id ∈ cfg.voters.outgoingIDs
    · -- still a voter of the outgoing config: the progress stays
      have hout' : id ∈ cfg.voters.outgoing.getD ∅ := hout
      simp only [outgoingIDs, hout', not_true, if_false]
      intro k
      by_cases hk : id = k
      · subst hk
        obtain ⟨hkeys, hlearner, hdisj⟩ := h id
        refine ⟨by simpa [hout'] using hid, fun p hp => ?_, by simp⟩
        have hnot : id ∉ cfg.learners.getD ∅ := fun hl => hdisj hl hout'
        simpa [hnot] using hlearner p hp
      · simpa [hk, Ne.symm hk] using h k
    · have hout' : id ∉ cfg.voters.outgoing.getD ∅ := hout
      simp only [outgoingIDs, hout', not_false_eq_true, if_true]
      intro k
      by_cases hk : id = k
      · subst hk
        simp [TrackedAs, hout']
      · simpa [Std.ExtTreeMap.getElem?_erase, hk, Ne.symm hk] using h k
  · have hcont : trk.contains id = false := Bool.eq_false_iff.mpr hid
    simpa only [hcont, Bool.not_false, if_true] using h

theorem makeLearner_tracks (c : Changer) (h : Tracks cfg trk) (id : PeerID) :
    Tracks (c.makeLearner cfg trk id).1 (c.makeLearner cfg trk id).2 := by
  unfold makeLearner
  cases hid : trk[id]? with
  | none => exact initProgress_tracks c h hid true
  | some pr =>
    cases hl : pr.isLearner with
    | true => simpa only [hl, if_true] using h
    | false =>
      have hrem := remove_tracks h id
      -- after the removal `id` is no voter of the incoming config and no learner
      have hgone : id ∉ (remove cfg trk id).1.voters.incoming ∧
          id ∉ (remove cfg trk id).1.learners.getD ∅ := by
        have hcont : trk.contains id = true := by
          rw [Std.ExtTreeMap.contains_eq_isSome_getElem?, hid]
          rfl
        unfold remove
        simp only [hcont, Bool.not_true, Bool.false_eq_true, if_false]
        split <;> simp
      simp only [hl, Bool.false_eq_true, if_false]
      split
      · rename_i hout
        intro k
        by_cases hk : id = k
        · subst hk
          have hout' : id ∈ (remove cfg trk id).1.voters.outgoing.getD ∅ := hout
          simp [TrackedAs, hgone, hout', hl]
        · simpa [Std.ExtTreeMap.getElem?_insert, hk] using hrem k
      · rename_i hout
        intro k
        by_cases hk : id = k
        · subst hk
          have hout' : id ∉ (remove cfg trk id).1.voters.outgoing.getD ∅ := hout
          simp [TrackedAs, hgone, hout']
        · simpa [Std.ExtTreeMap.getElem?_insert, hk, Ne.symm hk] using hrem k

/-! ## A whole list of changes -/

theorem applySingle_tracks (c : Changer) {st st' : Config × ProgressMap} {cc : ConfChangeSingle}
    (hstep : c.applySingle st cc = .ok st') (h : Tracks st.1 st.2) : Tracks st'.1 st'.2 := by
  unfold applySingle at hstep
  split at hstep
  · cases hstep
    exact h
  · split at hstep <;> cases hstep
    · exact makeVoter_tracks c h cc.nodeID
    · exact makeLearner_tracks c h cc.nodeID
    · exact remove_tracks h cc.nodeID
    · exact h

/-- No step touches the outgoing configuration or the `AutoLeave` flag. -/
theorem applySingle_frame (c : Changer) {st st' : Config × ProgressMap}
    {cc : ConfChangeSingle} (hstep : c.applySingle st cc = .ok st') :
    st'.1.voters.outgoing = st.1.voters.outgoing ∧ st'.1.autoLeave = st.1.autoLeave := by
  have hremove : ∀ id, (remove st.1 st.2 id).1.voters.outgoing =
      st.1.voters.outgoing ∧ (remove st.1 st.2 id).1.autoLeave = st.1.autoLeave := by
    intro id
    unfold remove
    split
    · exact ⟨rfl, rfl⟩
    · simp only
      split <;> exact ⟨rfl, rfl⟩
  have hinit : ∀ id isLearner, (c.initProgress st.1 st.2 id isLearner).1.voters.outgoing =
      st.1.voters.outgoing ∧
        (c.initProgress st.1 st.2 id isLearner).1.autoLeave = st.1.autoLeave := by
    intro id isLearner
    cases isLearner <;> exact ⟨rfl, rfl⟩
  unfold applySingle at hstep
  split at hstep
  · cases hstep
    exact ⟨rfl, rfl⟩
  · split at hstep <;> cases hstep
    · unfold makeVoter
      split
      · exact hinit _ _
      · exact ⟨rfl, rfl⟩
    · unfold makeLearner
      split
      · exact hinit _ _
      · simp only
        split
        · exact ⟨rfl, rfl⟩
        · split <;> exact hremove _
    · exact hremove _
    · exact ⟨rfl, rfl⟩

variable {trk' : ProgressMap} {cfg' : Config} {ccs : List ConfChangeSingle} {c : Changer}
  {op : Change}

/-- A successful `apply` leaves the outgoing voters alone, leaves some incoming
voter, and keeps the progress map exact. -/
theorem apply_spec (c : Changer) (h : c.apply cfg trk ccs = .ok (cfg', trk')) :
    cfg'.voters.outgoing = cfg.voters.outgoing ∧ cfg'.voters.incoming ≠ ∅ ∧
      (Tracks cfg trk → Tracks cfg' trk') := by
  simp only [apply, bind_eq_ok] at h
  obtain ⟨st, hfold, h⟩ := h
  have hkept : st.1.voters.outgoing = cfg.voters.outgoing ∧
      (Tracks cfg trk → Tracks st.1 st.2) := by
    refine (Sat.foldlM (E := fun _ => True)
      (I := fun st => st.1.voters.outgoing = cfg.voters.outgoing ∧
        (Tracks cfg trk → Tracks st.1 st.2)) ?_ ⟨rfl, fun h => h⟩).elim hfold
    intro st cc _ hst
    rw [← Returns, returns_iff]
    intro st' hstep
    exact ⟨(applySingle_frame c hstep).1.trans hst.1,
      fun h => applySingle_tracks c hstep (hst.2 h)⟩
  split at h
  · cases h
  · rename_i hcard
    simp only [pure, Except.pure, Except.ok.injEq, Prod.mk.injEq] at h
    obtain ⟨rfl, rfl⟩ := h
    exact ⟨hkept.1, fun he => hcard (by rw [he]; rfl), hkept.2⟩

/-! ## What a successful change has passed -/

theorem checkAndCopy_eq_ok : c.checkAndCopy = .ok (cfg, trk) ↔
      checkInvariants c.config.clone c.progressMap = .ok () ∧ cfg = c.config.clone ∧
        trk = c.progressMap :=
  checkAndReturn_eq_ok

theorem simple_eq_ok : c.simple ccs = .ok (cfg', trk') ↔
      checkInvariants c.config.clone c.progressMap = .ok () ∧ joint c.config = false ∧
        c.apply c.config.clone c.progressMap ccs = .ok (cfg', trk') ∧
        symdiff c.config.voters.incoming cfg'.voters.incoming ≤ 1 ∧
        checkInvariants cfg' trk' = .ok () := by
  simp only [simple, bind_eq_ok, Prod.exists, checkAndCopy_eq_ok]
  constructor
  · rintro ⟨_, _, ⟨hinv, rfl, rfl⟩, h⟩
    split at h
    · cases h
    rename_i hjoint
    obtain ⟨⟨cfg₁, trk₁⟩, happly, h⟩ := bind_eq_ok.mp h
    split at h
    · cases h
    rename_i hsym
    obtain ⟨hinv', rfl, rfl⟩ := checkAndReturn_eq_ok.mp h
    exact ⟨hinv, Bool.eq_false_iff.mpr hjoint, happly, not_lt.mp hsym, hinv'⟩
  · rintro ⟨hinv, hjoint, happly, hsym, hinv'⟩
    refine ⟨_, _, ⟨hinv, rfl, rfl⟩, ?_⟩
    have hjoint' : ¬ joint c.config.clone = true := Bool.eq_false_iff.mp hjoint
    rw [if_neg hjoint', happly]
    change (if symdiff _ _ > 1 then _ else _) = _
    rw [if_neg (not_lt.mpr hsym)]
    exact checkAndReturn_eq_ok.mpr ⟨hinv', rfl, rfl⟩

/-- The configuration in which `EnterJoint` applies the changes. -/
def Changer.jointCopy (c : Changer) : Config :=
  { c.config.clone with
    voters := { c.config.voters with outgoing := some c.config.voters.incoming } }

theorem enterJoint_eq_ok {autoLeave : Bool} : c.enterJoint autoLeave ccs = .ok (cfg', trk') ↔
      checkInvariants c.config.clone c.progressMap = .ok () ∧ joint c.config = false ∧
        c.config.voters.incoming ≠ ∅ ∧
        ∃ cfg₁, c.apply c.jointCopy c.progressMap ccs = .ok (cfg₁, trk') ∧
          cfg' = { cfg₁ with autoLeave } ∧ checkInvariants cfg' trk' = .ok () := by
  simp only [enterJoint, bind_eq_ok, Prod.exists, checkAndCopy_eq_ok]
  constructor
  · rintro ⟨_, _, ⟨hinv, rfl, rfl⟩, h⟩
    split at h
    · cases h
    rename_i hjoint
    split at h
    · cases h
    rename_i hcard
    obtain ⟨⟨cfg₁, trk₁⟩, happly, h⟩ := bind_eq_ok.mp h
    obtain ⟨hinv', rfl, rfl⟩ := checkAndReturn_eq_ok.mp h
    exact ⟨hinv, Bool.eq_false_iff.mpr hjoint, fun he => hcard (card_eq_zero.mpr he),
      cfg₁, happly, rfl, hinv'⟩
  · rintro ⟨hinv, hjoint, hne, cfg₁, happly, rfl, hinv'⟩
    refine ⟨_, _, ⟨hinv, rfl, rfl⟩, ?_⟩
    have hjoint' : ¬ joint c.config.clone = true := Bool.eq_false_iff.mp hjoint
    have hcard : ¬ c.config.clone.voters.incoming.card = 0 := fun h0 =>
      hne (card_eq_zero.mp h0)
    rw [if_neg hjoint', if_neg hcard]
    change (c.apply c.jointCopy c.progressMap ccs >>= _) = _
    rw [happly]
    exact checkAndReturn_eq_ok.mpr ⟨hinv', rfl, rfl⟩

/-! ## Leaving a joint configuration -/

theorem getElem?_foldl_erase (l : List PeerID) (trk : ProgressMap) (k : PeerID) :
    (l.foldl (fun trk id => trk.erase id) trk)[k]? = if k ∈ l then none else trk[k]? := by
  induction l generalizing trk with
  | nil => simp
  | cons id l ih =>
    rw [foldl_cons, ih, Std.ExtTreeMap.getElem?_erase]
    by_cases hk : id = k
    · subst hk
      simp
    · simp [hk, Ne.symm hk]

theorem getElem?_foldl_modify {f : Progress → Progress} {l : List PeerID} (hl : l.Nodup)
    (trk : ProgressMap) (k : PeerID) :
    (l.foldl (fun trk id => trk.modify id f) trk)[k]? =
      if k ∈ l then trk[k]?.map f else trk[k]? := by
  induction l generalizing trk with
  | nil => simp
  | cons id l ih =>
    obtain ⟨hid, hl'⟩ := nodup_cons.mp hl
    rw [foldl_cons, ih hl', Std.ExtTreeMap.getElem?_modify]
    by_cases hk : id = k
    · subst hk
      simp [hid]
    · simp [hk, Ne.symm hk]

theorem getD_foldl_nilAwareAdd (l : List PeerID) (m : Option (Finset PeerID)) :
    (l.foldl nilAwareAdd m).getD ∅ = l.toFinset ∪ m.getD ∅ := by
  induction l generalizing m with
  | nil => simp
  | cons id l ih =>
    rw [foldl_cons, ih, getD_nilAwareAdd]
    ext k
    simp only [mem_union, mem_insert, toFinset_cons, mem_toFinset]
    tauto

/-- Leaving a joint configuration promotes the incoming voters, turns staged
learners into learners and forgets the other outgoing voters. -/
structure Leaves (c : Changer) (cfg' : Config) (trk' : ProgressMap) : Prop where
  joint : joint c.config = true
  checked : checkInvariants cfg' trk' = .ok ()
  voters : cfg'.voters = { incoming := c.config.voters.incoming, outgoing := none }
  learners : cfg'.learnerIDs = c.config.learnersNextIDs ∪ c.config.learnerIDs
  learnersNext : cfg'.learnersNext = none
  exact : Exact c.config c.progressMap → Exact cfg' trk'

theorem leaveJoint_spec (h : c.leaveJoint = .ok (cfg', trk')) : Leaves c cfg' trk' := by
  simp only [leaveJoint, bind_eq_ok, Prod.exists, checkAndCopy_eq_ok] at h
  obtain ⟨_, _, ⟨hinv, rfl, rfl⟩, h⟩ := h
  split at h
  · cases h
  rename_i hjoint
  have hjoint' : joint c.config.clone = true := by simpa using hjoint
  obtain ⟨hinv', rfl, rfl⟩ := checkAndReturn_eq_ok.mp h
  have hlearn : ((ascending c.config.learnersNextIDs).foldl nilAwareAdd c.config.learners).getD ∅ =
      c.config.learnersNextIDs ∪ c.config.learnerIDs := by
    rw [getD_foldl_nilAwareAdd, toFinset_ascending]
    rfl
  refine ⟨hjoint', hinv', rfl, hlearn, rfl, fun hexact => ?_⟩
  obtain ⟨hout, -, hnext⟩ := checkInvariants_learners hinv
  have htrack : Tracks c.config c.progressMap := hexact.tracks hout
  apply Tracks.exact
  intro k
  have hk := htrack k
  have hstage : k ∈ c.config.learnersNext.getD ∅ → k ∈ c.config.voters.outgoing.getD ∅ := hnext k
  simp only [getElem?_foldl_erase, getElem?_foldl_modify (nodup_ascending _), Config.clone,
    Config.learnerIDs, Config.learnersNextIDs, outgoingIDs, getD_foldl_nilAwareAdd,
    mem_filter, mem_ascending, decide_eq_true_eq, mem_union, toFinset_ascending,
    Option.getD_none, notMem_empty]
  by_cases hgone : k ∈ c.config.voters.outgoing.getD ∅ ∧ k ∉ c.config.voters.incoming ∧
      ¬ (k ∈ c.config.learnersNext.getD ∅ ∨ k ∈ c.config.learners.getD ∅)
  · rw [if_pos hgone]
    obtain ⟨-, hin, hlearn⟩ := hgone
    simp [TrackedAs, hin, hlearn]
  · rw [if_neg hgone]
    by_cases hs : k ∈ c.config.learnersNext.getD ∅
    · -- a staged learner: its progress is there and is marked now
      have hsome : (c.progressMap[k]?).isSome = true := hk.1.mpr (.inr (.inl (hstage hs)))
      obtain ⟨pr, hpr⟩ := Option.isSome_iff_exists.mp hsome
      simp [TrackedAs, hs, hpr]
    · simp only [hs, if_false, false_or] at hgone ⊢
      refine ⟨?_, hk.2.1, by simp⟩
      rw [hk.1]
      tauto

/-! ## Overlap -/

theorem symdiff_eq_card (l r : Finset PeerID) : symdiff l r = (symmDiff l r).card :=
  (card_union_of_disjoint disjoint_sdiff_sdiff).symm

/-- What a successful change does to the two halves of the voter set: they stay
in place but for one voter (`simple`), the old voters become the outgoing half
(`enterJoint`), or the outgoing half goes away (`leaveJoint`). -/
theorem change_voters (hne : c.config.voters.incoming ≠ ∅) (h : op.run c = .ok (cfg', trk')) :
    cfg'.voters.incoming ≠ ∅ ∧
      ((symmDiff c.config.voters.incoming cfg'.voters.incoming).card ≤ 1 ∨
        cfg'.voters.outgoing = some c.config.voters.incoming) := by
  cases op with
  | simple ccs =>
    obtain ⟨-, -, happly, hsym, -⟩ := simple_eq_ok.mp h
    rw [symdiff_eq_card] at hsym
    exact ⟨(apply_spec c happly).2.1, .inl hsym⟩
  | enterJoint autoLeave ccs =>
    obtain ⟨-, -, -, cfg₁, happly, rfl, -⟩ := enterJoint_eq_ok.mp h
    exact ⟨(apply_spec c happly).2.1, .inr (apply_spec c happly).1⟩
  | leaveJoint =>
    have hin : cfg'.voters.incoming = c.config.voters.incoming := by
      rw [(leaveJoint_spec h).voters]
    rw [hin]
    exact ⟨hne, .inl (by simp)⟩

theorem outgoing_of_not_joint (h : joint cfg = false) : cfg.voters.outgoing.getD ∅ = ∅ := by
  simpa [joint, outgoingIDs] using h

/-- The configuration `EnterJoint` works in is tracked: the copied voters are no
learners, and the old outgoing half was empty. -/
theorem jointCopy_tracks (htrack : Tracks c.config c.progressMap) (hjoint : joint c.config = false)
    (hin : ∀ id ∈ c.config.learnerIDs, id ∉ c.config.voters.incoming) :
    Tracks c.jointCopy c.progressMap := by
  intro k
  obtain ⟨hkeys, hlearner, -⟩ := htrack k
  rw [outgoing_of_not_joint hjoint] at hkeys
  refine ⟨?_, hlearner, fun hk => hin k hk⟩
  simpa [jointCopy, Config.clone] using hkeys

/-- A successful change keeps the progress map exact. -/
theorem change_exact (h : op.run c = .ok (cfg', trk')) (hexact : Exact c.config c.progressMap) :
    Exact cfg' trk' := by
  cases op with
  | simple ccs =>
    obtain ⟨hinv, -, happly, -, -⟩ := simple_eq_ok.mp h
    have htrack : Tracks c.config c.progressMap :=
      hexact.tracks (checkInvariants_learners hinv).1
    exact ((apply_spec c happly).2.2 htrack).exact
  | enterJoint autoLeave ccs =>
    obtain ⟨hinv, hjoint, -, cfg₁, happly, rfl, -⟩ := enterJoint_eq_ok.mp h
    obtain ⟨hout, hin, -⟩ := checkInvariants_learners hinv
    have htrack : Tracks cfg₁ trk' :=
      (apply_spec c happly).2.2 (jointCopy_tracks (hexact.tracks hout) hjoint hin)
    exact Tracks.exact htrack
  | leaveJoint => exact (leaveJoint_spec h).exact hexact

theorem change_checked (h : op.run c = .ok (cfg', trk')) : checkInvariants cfg' trk' = .ok () := by
  cases op with
  | simple ccs =>
    obtain ⟨-, -, -, -, hinv⟩ := simple_eq_ok.mp h
    exact hinv
  | enterJoint autoLeave ccs =>
    obtain ⟨-, -, -, _, -, -, hinv⟩ := enterJoint_eq_ok.mp h
    exact hinv
  | leaveJoint => exact (leaveJoint_spec h).checked

/-- Winning quorums of the configurations before and after a change meet. -/
theorem change_overlap (hne : c.config.voters.incoming ≠ ∅) (h : op.run c = .ok (cfg', trk'))
    {s t : Finset PeerID} (hs : c.config.voters.Wins s) (ht : cfg'.voters.Wins t) :
    (s ∩ t).Nonempty := by
  obtain ⟨hne', hcase⟩ := change_voters hne h
  rw [wins_iff] at hs ht
  have hold : IsMajority c.config.voters.incoming s := hs.1.resolve_left hne
  rcases hcase with hsym | hout
  · obtain ⟨id, hid⟩ := majority_inter hsym hold (ht.1.resolve_left hne')
    simp only [mem_inter] at hid
    exact ⟨id, mem_inter.mpr ⟨hid.1.2, hid.2.2⟩⟩
  · have hids : cfg'.voters.outgoingIDs = c.config.voters.incoming := by
      rw [outgoingIDs, hout, Option.getD_some]
    rw [hids] at ht
    obtain ⟨id, -, hids, hidt⟩ := majority_inter_self hold (ht.2.resolve_left hne)
    exact ⟨id, mem_inter.mpr ⟨hids, hidt⟩⟩

/-- **Quorum overlap across reconfiguration.** A successful change of a
configuration with voters returns a configuration that passes `checkInvariants`;
its progress map is exact if the old one was; and winning quorums before and
after share a peer. (A change of a configuration that fails the checks does not
succeed.) -/
theorem change_preserves (c : Changer) (op : Change) (cfg' : Config) (trk' : ProgressMap)
    (hne : c.config.voters.incoming ≠ ∅) (h : op.run c = .ok (cfg', trk')) :
    checkInvariants cfg' trk' = .ok () ∧
      (Exact c.config c.progressMap → Exact cfg' trk') ∧
      ∀ s t, c.config.voters.Wins s → cfg'.voters.Wins t → (s ∩ t).Nonempty :=
  ⟨change_checked h, change_exact h, fun _ _ => change_overlap hne h⟩

/-- A changer over one voter. -/
def singleVoter : Changer where
  config := { voters := { incoming := {1} } }
  progressMap := (∅ : ProgressMap).insert 1 {}

/-- Adding a second voter to a single one is such a change. -/
theorem change_preserves_singleVoter :
    ∃ cfg' trk', (Change.simple [⟨.addNode, 2⟩]).run singleVoter = .ok (cfg', trk') ∧
      cfg'.voters.incoming = {1, 2} ∧
      checkInvariants cfg' trk' = .ok () ∧
      (Exact singleVoter.config singleVoter.progressMap → Exact cfg' trk') ∧
      ∀ s t, singleVoter.config.voters.Wins s → cfg'.voters.Wins t → (s ∩ t).Nonempty := by
  refine ⟨_, _, rfl, by decide, ?_⟩
  exact change_preserves singleVoter (.simple [⟨.addNode, 2⟩]) _ _ (by decide) rfl

/-- A stray in the progress map passes `checkInvariants`, and a change without
any effect returns it: exactness does not come from the checks alone. -/
theorem change_keeps_stray : ¬ ∀ (c : Changer) (op : Change) (cfg' : Config) (trk' : ProgressMap),
      checkInvariants c.config c.progressMap = .ok () →
      c.config.voters.incoming ≠ ∅ → op.run c = .ok (cfg', trk') →
      checkInvariants cfg' trk' = .ok () ∧ Exact cfg' trk' ∧
        ∀ s t, c.config.voters.Wins s → cfg'.voters.Wins t → (s ∩ t).Nonempty := by
  intro h
  obtain ⟨-, hexact, -⟩ := h
    { config := { voters := { incoming := {1} } }
      progressMap := ((∅ : ProgressMap).insert 1 {}).insert 2 {} }
    (.simple []) _ _ rfl (by decide) rfl
  have hstray := (hexact.keys 2).mp (by simp)
  revert hstray
  decide

end Cockroach.Raft.Confchange
