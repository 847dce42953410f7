import Cockroach.Raft.ConfchangeOverlap
import Cockroach.Raft.StepWalk

/-!
# Restoring a configuration from its `ConfState`

`Members` reads a configuration as four sets of peers, with one operation for
each kind of change. Where the progress map tracks the configuration
(`Standing`), every step of `Changer.apply` acts on the sets as that operation
does (`applySingle_members`). On the sets, the changes that
`toConfChangeSingle` lists are folds with a closed form, so that replaying them
through `Simple` and `EnterJoint` rebuilds every configuration that changes can
reach (`restore_confState`).
-/

namespace Cockroach.Raft.Confchange

open Lib List Changer
open Finset hiding map_cons mem_map mem_singleton

/-- A configuration as sets of peers. -/
@[ext] structure Members where
  incoming : Finset PeerID := ∅
  outgoing : Finset PeerID := ∅
  learners : Finset PeerID := ∅
  learnersNext : Finset PeerID := ∅
  deriving DecidableEq

namespace Members

def addVoter (s : Members) (id : PeerID) : Members :=
  { s with
    incoming := insert id s.incoming
    learners := s.learners.erase id
    learnersNext := s.learnersNext.erase id }

def remove (s : Members) (id : PeerID) : Members :=
  { s with
    incoming := s.incoming.erase id
    learners := s.learners.erase id
    learnersNext := s.learnersNext.erase id }

/-- A peer that still votes in the outgoing configuration is only staged. -/
def addLearner (s : Members) (id : PeerID) : Members :=
  if id ∈ s.learners then s
  else if id ∈ s.outgoing then
    { s with incoming := s.incoming.erase id, learnersNext := insert id s.learnersNext }
  else
    { s with
      incoming := s.incoming.erase id
      learners := insert id s.learners
      learnersNext := s.learnersNext.erase id }

/-- The effect of one change. -/
def change (s : Members) (cc : ConfChangeSingle) : Members :=
  if cc.nodeID = 0 then s
  else
    match cc.type with
    | .addNode => s.addVoter cc.nodeID
    | .addLearnerNode => s.addLearner cc.nodeID
    | .removeNode => s.remove cc.nodeID
    | .updateNode => s
    | .unknown _ => s

/-- Learners are no voters, and staged learners vote in the outgoing half only. -/
structure Sound (s : Members) : Prop where
  named : ∀ id, id ∈ s.incoming ∨ id ∈ s.outgoing ∨ id ∈ s.learners → id ≠ 0
  learner : ∀ id ∈ s.learners, id ∉ s.incoming ∧ id ∉ s.outgoing
  staged : ∀ id ∈ s.learnersNext, id ∈ s.outgoing ∧ id ∉ s.incoming

variable {s : Members}

section

variable (h : s.Sound)
include h

theorem Sound.addVoter {id : PeerID} (hid : id ≠ 0) : (s.addVoter id).Sound where
  named k hk := by
    by_cases he : k = id
    · exact he ▸ hid
    · exact h.named k (by simpa [Members.addVoter, he] using hk)
  learner k hk := by
    obtain ⟨hne, hl⟩ := Finset.mem_erase.mp hk
    simpa [Members.addVoter, hne] using h.learner k hl
  staged k hk := by
    obtain ⟨hne, hl⟩ := Finset.mem_erase.mp hk
    simpa [Members.addVoter, hne] using h.staged k hl

/-- With fewer voters and learners, and the same outgoing half. -/
theorem Sound.subset {s' : Members} (hin : s'.incoming ⊆ s.incoming)
    (hout : s'.outgoing = s.outgoing) (hl : s'.learners ⊆ s.learners)
    (hnext : s'.learnersNext ⊆ s.learnersNext) : s'.Sound where
  named k hk := by
    rw [hout] at hk
    exact h.named k (hk.imp (@hin k) (Or.imp_right (@hl k)))
  learner k hk := by
    rw [hout]
    exact (h.learner k (hl hk)).imp_left (mt (@hin k))
  staged k hk := by
    rw [hout]
    exact (h.staged k (hnext hk)).imp_right (mt (@hin k))

theorem Sound.remove (id : PeerID) : (s.remove id).Sound :=
  h.subset (erase_subset _ _) rfl (erase_subset _ _) (erase_subset _ _)

theorem Sound.addLearner {id : PeerID} (hid : id ≠ 0) : (s.addLearner id).Sound := by
  unfold Members.addLearner
  by_cases hl : id ∈ s.learners
  · rwa [if_pos hl]
  rw [if_neg hl]
  have hs : Sound { s with incoming := s.incoming.erase id } :=
    h.subset (erase_subset _ _) rfl subset_rfl subset_rfl
  by_cases hout : id ∈ s.outgoing
  · rw [if_pos hout]
    refine { hs with staged := fun k hk => ?_ }
    rcases Finset.mem_insert.mp hk with rfl | hk
    · exact ⟨hout, notMem_erase k _⟩
    · exact hs.staged k hk
  · rw [if_neg hout]
    refine ⟨fun k hk => ?_, fun k hk => ?_, fun k hk => hs.staged k (mem_of_mem_erase hk)⟩
    · by_cases he : k = id
      · exact he ▸ hid
      · exact h.named k (by simpa [he] using hk)
    · rcases Finset.mem_insert.mp hk with rfl | hk
      · exact ⟨notMem_erase k _, hout⟩
      · exact hs.learner k hk

theorem Sound.change (cc : ConfChangeSingle) : (s.change cc).Sound := by
  unfold Members.change
  by_cases hid : cc.nodeID = 0
  · rwa [if_pos hid]
  rw [if_neg hid]
  cases cc.type with
  | addNode => exact h.addVoter hid
  | addLearnerNode => exact h.addLearner hid
  | removeNode => exact h.remove cc.nodeID
  | updateNode => exact h
  | unknown n => exact h

end

/-- One change adds at most one voter or removes at most one. -/
theorem symdiff_change (s : Members) (cc : ConfChangeSingle) :
    symdiff s.incoming (s.change cc).incoming ≤ 1 := by
  have hself : symdiff s.incoming s.incoming ≤ 1 := by simp [symdiff]
  have hinsert : symdiff s.incoming (insert cc.nodeID s.incoming) ≤ 1 := by
    have hsub : insert cc.nodeID s.incoming \ s.incoming ⊆ {cc.nodeID} := by
      intro k hk
      simp only [Finset.mem_sdiff, Finset.mem_insert] at hk
      exact Finset.mem_singleton.mpr (hk.1.resolve_right hk.2)
    have hcard := Finset.card_le_card hsub
    rw [Finset.card_singleton] at hcard
    simpa [symdiff, sdiff_eq_empty_iff_subset.mpr (subset_insert _ _)] using hcard
  have herase : symdiff s.incoming (s.incoming.erase cc.nodeID) ≤ 1 := by
    have hsub : s.incoming \ s.incoming.erase cc.nodeID ⊆ {cc.nodeID} := by
      intro k hk
      simp only [Finset.mem_sdiff, Finset.mem_erase, not_and, Finset.mem_singleton] at hk ⊢
      by_contra hne
      exact hk.2 hne hk.1
    have hcard := Finset.card_le_card hsub
    rw [Finset.card_singleton] at hcard
    simpa [symdiff, sdiff_eq_empty_iff_subset.mpr (erase_subset _ _)] using hcard
  unfold change
  split
  · exact hself
  cases cc.type with
  | addNode => exact hinsert
  | addLearnerNode =>
    show symdiff s.incoming (s.addLearner cc.nodeID).incoming ≤ 1
    unfold addLearner
    split
    · exact hself
    · split <;> exact herase
  | removeNode => exact herase
  | updateNode => exact hself
  | unknown n => exact hself

/-! ### The lists that `toConfChangeSingle` makes -/

variable {ids : List PeerID} (h0 : ∀ id ∈ ids, id ≠ 0)
include h0

theorem foldl_addNode (s : Members) : (ids.map (⟨.addNode, ·⟩)).foldl change s = { s with
        incoming := s.incoming ∪ ids.toFinset
        learners := s.learners \ ids.toFinset
        learnersNext := s.learnersNext \ ids.toFinset } := by
  induction ids generalizing s with
  | nil => simp
  | cons id ids ih =>
    rw [map_cons, foldl_cons, ih fun k hk => h0 k (mem_cons_of_mem _ hk)]
    have hid : id ≠ 0 := h0 id mem_cons_self
    ext k <;> simp [change, addVoter, hid] <;> tauto

theorem foldl_removeNode (s : Members) : (ids.map (⟨.removeNode, ·⟩)).foldl change s = { s with
        incoming := s.incoming \ ids.toFinset
        learners := s.learners \ ids.toFinset
        learnersNext := s.learnersNext \ ids.toFinset } := by
  induction ids generalizing s with
  | nil => simp
  | cons id ids ih =>
    rw [map_cons, foldl_cons, ih fun k hk => h0 k (mem_cons_of_mem _ hk)]
    have hid : id ≠ 0 := h0 id mem_cons_self
    ext k <;> simp [change, remove, hid] <;> tauto

/-- Peers that vote nowhere become learners. -/
theorem foldl_addLearner (s : Members)
    (hs : ∀ id ∈ ids, id ∉ s.incoming ∧ id ∉ s.outgoing ∧ id ∉ s.learnersNext) :
    (ids.map (⟨.addLearnerNode, ·⟩)).foldl change s =
      { s with learners := s.learners ∪ ids.toFinset } := by
  induction ids generalizing s with
  | nil => simp
  | cons id ids ih =>
    have hid : id ≠ 0 := h0 id mem_cons_self
    obtain ⟨hin, hout, hnext⟩ := hs id mem_cons_self
    have hone : s.change ⟨.addLearnerNode, id⟩ =
        { s with learners := insert id s.learners } := by
      by_cases hl : id ∈ s.learners
      · simp [change, addLearner, hid, hl]
      · simp [change, addLearner, hid, hl, hout, hin, hnext]
    rw [map_cons, foldl_cons, hone, ih (fun k hk => h0 k (mem_cons_of_mem _ hk))
        { s with learners := insert id s.learners }
        fun k hk => hs k (mem_cons_of_mem _ hk)]
    ext k <;> simp

/-- Peers that vote in the outgoing half only are staged. -/
theorem foldl_stageLearner (s : Members)
    (hs : ∀ id ∈ ids, id ∉ s.incoming ∧ id ∈ s.outgoing ∧ id ∉ s.learners) :
    (ids.map (⟨.addLearnerNode, ·⟩)).foldl change s =
      { s with learnersNext := s.learnersNext ∪ ids.toFinset } := by
  induction ids generalizing s with
  | nil => simp
  | cons id ids ih =>
    have hid : id ≠ 0 := h0 id mem_cons_self
    obtain ⟨hin, hout, hl⟩ := hs id mem_cons_self
    have hone : s.change ⟨.addLearnerNode, id⟩ =
        { s with learnersNext := insert id s.learnersNext } := by
      simp [change, addLearner, hid, hl, hout, hin]
    rw [map_cons, foldl_cons, hone, ih (fun k hk => h0 k (mem_cons_of_mem _ hk))
        { s with learnersNext := insert id s.learnersNext }
        fun k hk => hs k (mem_cons_of_mem _ hk)]
    ext k <;> simp

end Members

/-! ## Changes act on the members -/

/-- The members of a configuration. -/
def members (cfg : Config) : Members where
  incoming := cfg.voters.incoming
  outgoing := cfg.voters.outgoing.getD ∅
  learners := cfg.learners.getD ∅
  learnersNext := cfg.learnersNext.getD ∅

/-- A configuration in the middle of a change: tracked by its progress map, with
sound members, and with `LearnersNext` nil when it is empty. -/
structure Standing (cfg : Config) (trk : ProgressMap) : Prop where
  tracks : Tracks cfg trk
  sound : (members cfg).Sound
  learnersNext : cfg.learnersNext ≠ some ∅

variable {cfg : Config} {trk : ProgressMap}

theorem insert_erase_same (ids : Finset PeerID) (id : PeerID) :
    insert id (ids.erase id) = insert id ids := by
  ext k
  by_cases hk : k = id <;> simp [hk]

theorem nilAwareDelete_ne {m : Option (Finset PeerID)} (id : PeerID) :
    nilAwareDelete m id ≠ some ∅ := by
  cases m with
  | none => simp [nilAwareDelete]
  | some s =>
    unfold nilAwareDelete
    by_cases h : (s.erase id).card = 0
    · simp [h]
    · simp only [h, if_false, ne_eq, Option.some.injEq]
      rintro he
      exact h (by rw [he]; rfl)

theorem nilAwareAdd_ne (m : Option (Finset PeerID)) (id : PeerID) : nilAwareAdd m id ≠ some ∅ := by
  simp [nilAwareAdd]

section

variable (h : Standing cfg trk)
include h

/-- A peer without progress is no member. -/
theorem Standing.absent {id : PeerID} (hid : trk[id]? = none) :
    id ∉ (members cfg).incoming ∧ id ∉ (members cfg).outgoing ∧ id ∉ (members cfg).learners ∧
      id ∉ (members cfg).learnersNext := by
  have htrack := (h.tracks id).1
  rw [hid] at htrack
  simp only [Option.isSome_none, Bool.false_eq_true, false_iff, not_or] at htrack
  exact ⟨htrack.1, htrack.2.1, htrack.2.2, fun hnext => htrack.2.1 (h.sound.staged id hnext).1⟩

theorem makeVoter_members (c : Changer) (id : PeerID) :
    members (c.makeVoter cfg trk id).1 = (members cfg).addVoter id ∧
      (c.makeVoter cfg trk id).1.learnersNext ≠ some ∅ := by
  unfold makeVoter
  cases hid : trk[id]? with
  | none =>
    obtain ⟨-, -, hl, hnext⟩ := h.absent hid
    refine ⟨?_, h.learnersNext⟩
    rw [Members.addVoter, erase_eq_of_notMem hl, erase_eq_of_notMem hnext]
    rfl
  | some pr => exact ⟨by simp [members, Members.addVoter], nilAwareDelete_ne id⟩

theorem remove_members (id : PeerID) :
    members (remove cfg trk id).1 = (members cfg).remove id ∧
      (remove cfg trk id).1.learnersNext ≠ some ∅ := by
  unfold remove
  by_cases hid : id ∈ trk
  · have hcont : trk.contains id = true := hid
    simp only [hcont, Bool.not_true, Bool.false_eq_true, if_false]
    split <;> exact ⟨by simp [members, Members.remove], nilAwareDelete_ne id⟩
  · have hcont : trk.contains id = false := Bool.eq_false_iff.mpr hid
    obtain ⟨hin, -, hl, hnext⟩ := h.absent (Std.ExtTreeMap.getElem?_eq_none hid)
    simp only [hcont, Bool.not_false, if_true]
    refine ⟨?_, h.learnersNext⟩
    rw [Members.remove, erase_eq_of_notMem hin, erase_eq_of_notMem hl, erase_eq_of_notMem hnext]

theorem makeLearner_members (c : Changer) (id : PeerID) :
    members (c.makeLearner cfg trk id).1 = (members cfg).addLearner id ∧
      (c.makeLearner cfg trk id).1.learnersNext ≠ some ∅ := by
  unfold makeLearner Members.addLearner
  cases hid : trk[id]? with
  | none =>
    obtain ⟨hin, hout, hl, hnext⟩ := h.absent hid
    rw [if_neg hl, if_neg hout, erase_eq_of_notMem hin, erase_eq_of_notMem hnext]
    exact ⟨rfl, h.learnersNext⟩
  | some pr =>
    have hlearner : pr.isLearner = true ↔ id ∈ (members cfg).learners :=
      (h.tracks id).2.1 pr hid
    by_cases hl : id ∈ (members cfg).learners
    · rw [if_pos hl]
      simp only [hlearner.mpr hl, if_true]
      exact ⟨trivial, h.learnersNext⟩
    · obtain ⟨hrem, hne⟩ := remove_members h id
      have hpr : ¬ pr.isLearner = true := fun hp => hl (hlearner.mp hp)
      simp only [hpr, Bool.false_eq_true, if_false, if_neg hl]
      have hsame : (remove cfg trk id).1.voters.outgoingIDs = (members cfg).outgoing :=
        congrArg Members.outgoing hrem
      rw [hsame]
      by_cases hout : id ∈ (members cfg).outgoing
      · rw [if_pos hout, if_pos hout]
        refine ⟨?_, nilAwareAdd_ne _ id⟩
        change { members (remove cfg trk id).1 with
          learnersNext := insert id (members (remove cfg trk id).1).learnersNext } = _
        rw [hrem]
        simp [Members.remove, hl, insert_erase_same]
      · rw [if_neg hout, if_neg hout]
        refine ⟨?_, hne⟩
        change { members (remove cfg trk id).1 with
          learners := insert id (members (remove cfg trk id).1).learners } = _
        rw [hrem]
        simp [Members.remove, insert_erase_same]

end

/-- What a part of a change does to a configuration that starts it. -/
structure Acts (cfg : Config) (ccs : List ConfChangeSingle) (st' : Config × ProgressMap) :
    Prop where
  standing : Standing st'.1 st'.2
  members : members st'.1 = ccs.foldl Members.change (members cfg)
  outgoing : st'.1.voters.outgoing = cfg.voters.outgoing
  autoLeave : st'.1.autoLeave = cfg.autoLeave

/-- One pass of the loop of `Changer.apply` acts on the members as `change`. Only
a change of unknown type fails. -/
theorem applySingle_acts (c : Changer) {st : Config × ProgressMap} (h : Standing st.1 st.2)
    (cc : ConfChangeSingle) :
    Sat (c.applySingle st cc) (fun _ => ∃ n, cc.type = .unknown n) fun st' =>
      Acts st.1 [cc] st' := by
  have hsat : Sat (c.applySingle st cc) (fun _ => ∃ n, cc.type = .unknown n) fun st' =>
      members st'.1 = (members st.1).change cc ∧ st'.1.learnersNext ≠ some ∅ := by
    unfold applySingle Members.change
    by_cases hid : cc.nodeID = 0
    · rw [if_pos hid, if_pos hid]
      exact ⟨rfl, h.learnersNext⟩
    rw [if_neg hid, if_neg hid]
    cases cc.type with
    | addNode => exact makeVoter_members h c cc.nodeID
    | addLearnerNode => exact makeLearner_members h c cc.nodeID
    | removeNode => exact remove_members h cc.nodeID
    | updateNode => exact ⟨rfl, h.learnersNext⟩
    | unknown n => exact ⟨n, rfl⟩
  cases hstep : c.applySingle st cc with
  | error e =>
    rw [hstep] at hsat
    exact hsat
  | ok st' =>
    rw [hstep] at hsat
    obtain ⟨hmem, hne⟩ := hsat
    obtain ⟨hout, hauto⟩ := applySingle_frame c hstep
    refine ⟨⟨applySingle_tracks c hstep h.tracks, ?_, hne⟩, hmem, hout, hauto⟩
    rw [hmem]
    exact h.sound.change cc

theorem foldlM_acts (c : Changer) (ccs : List ConfChangeSingle) {st : Config × ProgressMap}
    (h : Standing st.1 st.2) :
    Sat (ccs.foldlM c.applySingle st) (fun _ => ∃ cc ∈ ccs, ∃ n, cc.type = .unknown n) fun st' =>
      Acts st.1 ccs st' := by
  induction ccs generalizing st with
  | nil => exact ⟨h, rfl, rfl, rfl⟩
  | cons cc ccs ih =>
    rw [foldlM_cons]
    refine Sat.bind ((applySingle_acts c h cc).mono (fun _ hn => ⟨cc, mem_cons_self, hn⟩)
      fun _ hacts => hacts) fun st₁ h₁ => ?_
    refine (ih h₁.standing).mono ?_ fun st' h' => ⟨h'.standing, ?_, ?_, ?_⟩
    · rintro _ ⟨k, hk, hn⟩
      exact ⟨k, mem_cons_of_mem _ hk, hn⟩
    · rw [h'.members, h₁.members]
      rfl
    · exact h'.outgoing.trans h₁.outgoing
    · exact h'.autoLeave.trans h₁.autoLeave

/-- `apply` fails only on an unknown type, or when no voter is left. -/
theorem apply_acts (c : Changer) (ccs : List ConfChangeSingle) (h : Standing cfg trk) :
    Sat (c.apply cfg trk ccs)
      (fun _ => (∃ cc ∈ ccs, ∃ n, cc.type = .unknown n) ∨
        (ccs.foldl Members.change (members cfg)).incoming = ∅)
      fun st' => Acts cfg ccs st' := by
  have hfold : Sat (ccs.foldlM c.applySingle (cfg, trk))
      (fun _ => ∃ cc ∈ ccs, ∃ n, cc.type = .unknown n) fun st' => Acts cfg ccs st' :=
    foldlM_acts c ccs h
  unfold apply
  refine Sat.bind (hfold.mono (fun _ hn => .inl hn) fun _ hacts => hacts) fun st' hacts =>
    Sat.ite (fun hcard => .inr ?_) fun _ => hacts
  rw [← hacts.members]
  exact card_eq_zero.mp hcard

/-! ## The checks pass -/

/-- A configuration that stands passes `checkInvariants` if the parts that only a
joint configuration has are nil otherwise. -/
theorem checkInvariants_of_standing (h : Standing cfg trk)
    (hjoint : cfg.voters.outgoing.getD ∅ = ∅ →
      cfg.voters.outgoing = none ∧ cfg.autoLeave = false) :
    checkInvariants cfg trk = .ok () := by
  have hprogress : ∀ id, id ∈ (members cfg).incoming ∨ id ∈ (members cfg).outgoing ∨
      id ∈ (members cfg).learners → trk.contains id = true := by
    intro id hid
    rw [Std.ExtTreeMap.contains_eq_isSome_getElem?]
    exact (h.tracks id).1.mpr hid
  have hmark : ∀ id, trk.contains id = true →
      ((trk[id]?.getD {}).isLearner = true ↔ id ∈ (members cfg).learners) := by
    intro id hid
    rw [Std.ExtTreeMap.contains_eq_isSome_getElem?] at hid
    obtain ⟨pr, hpr⟩ := Option.isSome_iff_exists.mp hid
    rw [hpr]
    exact (h.tracks id).2.1 pr hpr
  simp only [checkInvariants, bind_eq_ok, forEach_eq_ok]
  refine ⟨(), fun id hid => if_pos (hprogress id ?_), (), fun id hid => if_pos (hprogress id ?_),
    (), fun id hid => if_pos (hprogress id ?_), (), fun id hid => ?_, (), fun id hid => ?_, ?_⟩
  · exact (mem_union.mp hid).imp_right .inl
  · exact .inr (.inr hid)
  · exact .inr (.inl (h.sound.staged id hid).1)
  · have hout : id ∈ cfg.voters.outgoingIDs := (h.sound.staged id hid).1
    have hl : id ∉ (members cfg).learners := fun hl => (h.sound.learner id hl).2 hout
    rw [if_neg (not_not.mpr hout), if_neg]
    exact fun hm => hl ((hmark id (hprogress id (.inr (.inl hout)))).mp hm)
  · have hin : id ∉ cfg.voters.incoming := (h.sound.learner id hid).1
    have hout : id ∉ cfg.voters.outgoingIDs := (h.sound.learner id hid).2
    have hm := (hmark id (hprogress id (.inr (.inr hid)))).mpr hid
    rw [if_neg hout, if_neg hin, hm]
    rfl
  · cases hj : joint cfg with
    | true => rfl
    | false =>
      obtain ⟨hout, hauto⟩ := hjoint (outgoing_of_not_joint hj)
      have hnext : cfg.learnersNext = none := by
        cases hn : cfg.learnersNext with
        | none => rfl
        | some ids =>
          exfalso
          have hempty : ids = ∅ := by
            refine eq_empty_of_forall_notMem fun id hid => ?_
            have hstaged : id ∈ (members cfg).learnersNext := by
              simpa [members, hn] using hid
            have := (h.sound.staged id hstaged).1
            simp [members, hout] at this
          exact h.learnersNext (by rw [hn, hempty])
      simp [hout, hauto, hnext]
      rfl

/-! ## Reachable configurations -/

/-- The configurations that successful changes make from the empty one. The
limits and the last index a `Changer` carries may differ from call to call. -/
inductive Reachable : Config → ProgressMap → Prop
  | init : Reachable .makeEmpty ∅
  | change {c : Changer} {op : Change} {cfg' : Config} {trk' : ProgressMap} :
      Reachable c.config c.progressMap → op.run c = .ok (cfg', trk') → Reachable cfg' trk'

theorem standing_empty : Standing .makeEmpty ∅ where
  tracks id := by simp [TrackedAs, Config.makeEmpty]
  sound := by constructor <;> simp [members, Config.makeEmpty]
  learnersNext := by simp [Config.makeEmpty]

/-- The configuration `EnterJoint` works in stands: nothing was staged before. -/
theorem Standing.jointCopy {c : Changer} (h : Standing c.config c.progressMap)
    (hjoint : joint c.config = false) : Standing c.jointCopy c.progressMap where
  tracks := jointCopy_tracks h.tracks hjoint fun id hid => (h.sound.learner id hid).1
  sound := by
    refine ⟨fun id hid => ?_, fun id hid => ?_, fun id hid => ?_⟩
    · rcases hid with hid | hid | hid
      · exact h.sound.named id (.inl hid)
      · exact h.sound.named id (.inl hid)
      · exact h.sound.named id (.inr (.inr hid))
    · exact ⟨(h.sound.learner id hid).1, (h.sound.learner id hid).1⟩
    · have hout : id ∈ c.config.voters.outgoing.getD ∅ := (h.sound.staged id hid).1
      rw [outgoing_of_not_joint hjoint] at hout
      exact absurd hout (notMem_empty id)
  learnersNext := h.learnersNext

/-- A successful change of a configuration that stands makes one that stands. -/
theorem change_standing {c : Changer} {op : Change} {cfg' : Config} {trk' : ProgressMap}
    (h : Standing c.config c.progressMap) (hrun : op.run c = .ok (cfg', trk')) :
    Standing cfg' trk' := by
  cases op with
  | simple ccs =>
    obtain ⟨-, -, happly, -, -⟩ := simple_eq_ok.mp hrun
    have hclone : Standing c.config.clone c.progressMap := { h with }
    exact ((apply_acts c ccs hclone).elim happly).standing
  | enterJoint autoLeave ccs =>
    obtain ⟨-, hjoint, -, cfg₁, happly, rfl, -⟩ := enterJoint_eq_ok.mp hrun
    exact { ((apply_acts c ccs (h.jointCopy hjoint)).elim happly).standing with }
  | leaveJoint =>
    have hleave := leaveJoint_spec hrun
    have hin : (members cfg').incoming = (members c.config).incoming := by
      simp only [members, hleave.voters]
    have hout : (members cfg').outgoing = ∅ := by
      simp only [members, hleave.voters, Option.getD_none]
    have hlearn : (members cfg').learners =
        (members c.config).learnersNext ∪ (members c.config).learners := hleave.learners
    have hnext : (members cfg').learnersNext = ∅ := by
      simp only [members, hleave.learnersNext, Option.getD_none]
    refine ⟨?_, ⟨fun id hid => ?_, fun id hid => ?_, fun id hid => ?_⟩, ?_⟩
    · exact (hleave.exact h.tracks.exact).tracks
        (checkInvariants_learners hleave.checked).1
    · rw [hin, hout, hlearn] at hid
      rcases hid with hid | hid | hid
      · exact h.sound.named id (.inl hid)
      · exact absurd hid (notMem_empty id)
      · rcases mem_union.mp hid with hid | hid
        · exact h.sound.named id (.inr (.inl (h.sound.staged id hid).1))
        · exact h.sound.named id (.inr (.inr hid))
    · rw [hin, hout]
      rw [hlearn] at hid
      refine ⟨?_, notMem_empty id⟩
      rcases mem_union.mp hid with hid | hid
      · exact (h.sound.staged id hid).2
      · exact (h.sound.learner id hid).1
    · rw [hnext] at hid
      exact absurd hid (notMem_empty id)
    · rw [hleave.learnersNext]
      simp

theorem Reachable.standing (h : Reachable cfg trk) : Standing cfg trk := by
  induction h with
  | init => exact standing_empty
  | change _ hrun ih => exact change_standing ih hrun

theorem Reachable.checked (h : Reachable cfg trk) : checkInvariants cfg trk = .ok () := by
  cases h with
  | init => exact checkInvariants_of_standing standing_empty fun _ => ⟨rfl, rfl⟩
  | change _ hrun => exact change_checked hrun

/-! ## Replaying the changes -/

variable {s : Members}

namespace Members

/-- Every change of the list is of a known type and leaves a voter. -/
def Viable : Members → List ConfChangeSingle → Prop
  | _, [] => True
  | s, cc :: ccs =>
    (∀ n, cc.type ≠ .unknown n) ∧ (s.change cc).incoming ≠ ∅ ∧ Viable (s.change cc) ccs

theorem viable_append {xs ys : List ConfChangeSingle} (hx : s.Viable xs)
    (hy : (xs.foldl change s).Viable ys) : s.Viable (xs ++ ys) := by
  induction xs generalizing s with
  | nil => exact hy
  | cons cc xs ih => exact ⟨hx.1, hx.2.1, ih hx.2.2 hy⟩

theorem viable_addNode {ids : List PeerID} (h0 : ∀ id ∈ ids, id ≠ 0) (s : Members) :
    s.Viable (ids.map (⟨.addNode, ·⟩)) := by
  induction ids generalizing s with
  | nil => trivial
  | cons id ids ih =>
    refine ⟨fun _ => ConfChangeType.noConfusion, ?_,
      ih (fun k hk => h0 k (mem_cons_of_mem _ hk)) _⟩
    simp [change, addVoter, h0 id mem_cons_self]

theorem viable_addLearner {ids : List PeerID} (hne : s.incoming ≠ ∅)
    (hs : ∀ id ∈ ids, id ∉ s.incoming) : s.Viable (ids.map (⟨.addLearnerNode, ·⟩)) := by
  induction ids generalizing s with
  | nil => trivial
  | cons id ids ih =>
    have hin : (s.change ⟨.addLearnerNode, id⟩).incoming = s.incoming := by
      have herase := erase_eq_of_notMem (hs id mem_cons_self)
      unfold change addLearner
      dsimp only
      split
      · rfl
      · split
        · rfl
        · split <;> exact herase
    refine ⟨fun _ => ConfChangeType.noConfusion, hin ▸ hne, ih (hin ▸ hne) ?_⟩
    rw [hin]
    exact fun k hk => hs k (mem_cons_of_mem _ hk)

end Members

/-- A standing configuration that is not joint, with the members `s`. -/
structure Plain (cfg : Config) (trk : ProgressMap) (s : Members) : Prop where
  standing : Standing cfg trk
  members : members cfg = s
  outgoing : cfg.voters.outgoing = none
  autoLeave : cfg.autoLeave = false

theorem Plain.checked (h : Plain cfg trk s) : checkInvariants cfg trk = .ok () :=
  checkInvariants_of_standing h.standing fun _ => ⟨h.outgoing, h.autoLeave⟩

theorem Plain.clone (h : Plain cfg trk s) : Plain cfg.clone trk s :=
  { h with standing := { h.standing with }, autoLeave := rfl }

theorem Plain.not_joint (h : Plain cfg trk s) : joint cfg = false := by
  simp [joint, JointConfig.outgoingIDs, h.outgoing]

variable {c : Changer}

/-- `Simple` with one change of a known type that leaves a voter succeeds. -/
theorem simple_single {cc : ConfChangeSingle}
    (h : Plain c.config c.progressMap s) (htype : ∀ n, cc.type ≠ .unknown n)
    (hne : (s.change cc).incoming ≠ ∅) :
    ∃ cfg' trk', c.simple [cc] = .ok (cfg', trk') ∧ Plain cfg' trk' (s.change cc) := by
  have hacts := apply_acts c [cc] h.clone.standing
  rw [h.clone.members] at hacts
  cases happly : c.apply c.config.clone c.progressMap [cc] with
  | error e =>
    rcases hacts.stop happly with ⟨k, hk, n, hn⟩ | hempty
    · rw [mem_singleton.mp hk] at hn
      exact absurd hn (htype n)
    · exact absurd hempty hne
  | ok st' =>
    obtain ⟨cfg', trk'⟩ := st'
    have hdone := hacts.elim happly
    have hplain : Plain cfg' trk' (s.change cc) := by
      refine ⟨hdone.standing, ?_, hdone.outgoing.trans h.outgoing, hdone.autoLeave⟩
      rw [hdone.members, h.clone.members]
      rfl
    refine ⟨cfg', trk', simple_eq_ok.mpr ⟨h.clone.checked, h.not_joint, happly, ?_,
      hplain.checked⟩, hplain⟩
    have hsym := Members.symdiff_change s cc
    rwa [← hplain.members, ← h.members] at hsym

theorem chain_simple {ccs : List ConfChangeSingle}
    (h : Plain c.config c.progressMap s) (hv : s.Viable ccs) :
    ∃ cfg' trk', chain c (ccs.map fun cc chg => chg.simple [cc]) = .ok (cfg', trk') ∧
      Plain cfg' trk' (ccs.foldl Members.change s) := by
  induction ccs generalizing c s with
  | nil => exact ⟨_, _, rfl, h⟩
  | cons cc ccs ih =>
    obtain ⟨htype, hne, hv⟩ := hv
    obtain ⟨cfg₁, trk₁, hsimple, h₁⟩ := simple_single h htype hne
    obtain ⟨cfg', trk', hchain, h'⟩ :=
      @ih _ { c with config := cfg₁, progressMap := trk₁ } h₁ hv
    refine ⟨cfg', trk', ?_, h'⟩
    rw [map_cons, chain, hsimple]
    exact hchain

theorem chain_singleton (c : Changer) (op : Changer → ConfResult) : chain c [op] = op c := by
  unfold chain
  cases op c with
  | error e => rfl
  | ok st => rfl

theorem chain_append (c : Changer) (xs ys : List (Changer → ConfResult)) : chain c (xs ++ ys) =
      (chain c xs >>= fun st => chain { c with config := st.1, progressMap := st.2 } ys) := by
  induction xs generalizing c with
  | nil => rfl
  | cons op xs ih =>
    simp only [cons_append, chain, bind_assoc]
    congr 1
    funext st
    exact ih _

theorem Reachable.incoming_ne (h : Reachable cfg trk) :
    cfg = .makeEmpty ∨ cfg.voters.incoming ≠ ∅ := by
  induction h with
  | init => exact .inl rfl
  | @change c op cfg' trk' _ hrun ih =>
    right
    cases op with
    | simple ccs =>
      obtain ⟨-, -, happly, -, -⟩ := simple_eq_ok.mp hrun
      exact (apply_spec c happly).2.1
    | enterJoint autoLeave ccs =>
      obtain ⟨-, -, -, cfg₁, happly, rfl, -⟩ := enterJoint_eq_ok.mp hrun
      exact (apply_spec c happly).2.1
    | leaveJoint =>
      have hleave := leaveJoint_spec hrun
      rw [hleave.voters]
      refine ih.resolve_left fun hempty => ?_
      -- the empty configuration is not joint
      have hjoint := hleave.joint
      rw [hempty] at hjoint
      exact absurd hjoint (by decide)

/-- The `ConfState` of a configuration in terms of its members. -/
def Members.confState (s : Members) (autoLeave : Bool) : ConfState where
  voters := ascending s.incoming
  votersOutgoing := ascending s.outgoing
  learners := ascending s.learners
  learnersNext := ascending s.learnersNext
  autoLeave := autoLeave

theorem confState_eq (cfg : Config) : cfg.confState = (members cfg).confState cfg.autoLeave := rfl

variable {autoLeave : Bool}

/-- The changes that `toConfChangeSingle` lists second lead from the outgoing
voters alone to all members. -/
theorem foldl_incoming (hs : s.Sound) :
    (toConfChangeSingle (s.confState autoLeave)).2.foldl Members.change
      { incoming := s.outgoing, outgoing := s.outgoing } = s := by
  have hout : ∀ id ∈ ascending s.outgoing, id ≠ 0 := fun id hid =>
    hs.named id (.inr (.inl (mem_ascending.mp hid)))
  have hin : ∀ id ∈ ascending s.incoming, id ≠ 0 := fun id hid =>
    hs.named id (.inl (mem_ascending.mp hid))
  have hlearn : ∀ id ∈ ascending s.learners, id ≠ 0 := fun id hid =>
    hs.named id (.inr (.inr (mem_ascending.mp hid)))
  have hnext : ∀ id ∈ ascending s.learnersNext, id ≠ 0 := fun id hid =>
    hs.named id (.inr (.inl (hs.staged id (mem_ascending.mp hid)).1))
  simp only [toConfChangeSingle, Members.confState, foldl_append]
  rw [Members.foldl_removeNode hout, Members.foldl_addNode hin, Members.foldl_addLearner hlearn,
    Members.foldl_stageLearner hnext]
  · ext k <;> simp
  · intro id hid
    obtain ⟨hout, hin⟩ := hs.staged id (mem_ascending.mp hid)
    have hl : id ∉ s.learners := fun hl => (hs.learner id hl).2 hout
    simp [hout, hin, hl]
  · intro id hid
    obtain ⟨hin, hout⟩ := hs.learner id (mem_ascending.mp hid)
    simp [hout, hin]

/-- Without outgoing voters nothing is staged, and the listed changes can be made
one at a time. -/
theorem viable_incoming (hs : s.Sound) (hout : s.outgoing = ∅) (hne : s.incoming ≠ ∅) :
    Members.Viable {} (toConfChangeSingle (s.confState autoLeave)).2 := by
  have hnext : s.learnersNext = ∅ := by
    refine eq_empty_of_forall_notMem fun id hid => ?_
    have hmem := (hs.staged id hid).1
    rw [hout] at hmem
    exact notMem_empty id hmem
  have hin : ∀ id ∈ ascending s.incoming, id ≠ 0 := fun id hid =>
    hs.named id (.inl (mem_ascending.mp hid))
  have hnil : ascending (∅ : Finset PeerID) = [] := rfl
  simp only [toConfChangeSingle, Members.confState, hout, hnext, hnil, map_nil,
    nil_append, append_nil]
  refine Members.viable_append (Members.viable_addNode hin _) ?_
  rw [Members.foldl_addNode hin]
  refine Members.viable_addLearner (by simpa using hne) fun id hid => ?_
  simpa using (hs.learner id (mem_ascending.mp hid)).1

theorem plain_empty : Plain .makeEmpty ∅ {} :=
  ⟨standing_empty, rfl, rfl, rfl⟩

/-- `EnterJoint` with the changes listed second, from the outgoing voters. -/
theorem enterJoint_incoming (hs : s.Sound) (hout : s.outgoing ≠ ∅)
    (hne : s.incoming ≠ ∅) (h : Plain c.config c.progressMap { incoming := s.outgoing }) :
    ∃ cfg' trk', c.enterJoint autoLeave (toConfChangeSingle (s.confState autoLeave)).2 =
        .ok (cfg', trk') ∧ members cfg' = s ∧ cfg'.autoLeave = autoLeave := by
  have hin : c.config.voters.incoming = s.outgoing := congrArg Members.incoming h.members
  have hcopy : members c.jointCopy = { incoming := s.outgoing, outgoing := s.outgoing } := by
    have hl := congrArg Members.learners h.members
    have hn := congrArg Members.learnersNext h.members
    exact Members.ext hin hin hl hn
  have hacts := apply_acts c (toConfChangeSingle (s.confState autoLeave)).2
    (h.standing.jointCopy h.not_joint)
  rw [hcopy, foldl_incoming hs] at hacts
  cases happly : c.apply c.jointCopy c.progressMap
      (toConfChangeSingle (s.confState autoLeave)).2 with
  | error e =>
    rcases hacts.stop happly with ⟨cc, hcc, n, hn⟩ | hempty
    · simp only [toConfChangeSingle, mem_append, mem_map] at hcc
      rcases hcc with ((⟨_, -, rfl⟩ | ⟨_, -, rfl⟩) | ⟨_, -, rfl⟩) | ⟨_, -, rfl⟩ <;> cases hn
    · exact absurd hempty hne
  | ok st' =>
    obtain ⟨cfg₁, trk'⟩ := st'
    have hdone := hacts.elim happly
    have hmem : members cfg₁ = s := by
      rw [hdone.members, hcopy, foldl_incoming hs]
    refine ⟨{ cfg₁ with autoLeave }, trk', enterJoint_eq_ok.mpr ⟨h.clone.checked, h.not_joint,
      hin ▸ hout, cfg₁, happly, rfl, ?_⟩, hmem, rfl⟩
    refine checkInvariants_of_standing { hdone.standing with } fun hempty => ?_
    exact absurd ((congrArg Members.outgoing hmem).symm.trans hempty) hout

/-- `Restore` rebuilds sound members from their `ConfState`. -/
theorem restore_members (hs : s.Sound) (hne : s.incoming ≠ ∅)
    (hauto : s.outgoing = ∅ → autoLeave = false) (hcfg : c.config = .makeEmpty)
    (htrk : c.progressMap = ∅) :
    ∃ cfg' trk', restore c (s.confState autoLeave) = .ok (cfg', trk') ∧ members cfg' = s ∧
      cfg'.autoLeave = autoLeave := by
  have hplain : Plain c.config c.progressMap {} := by
    rw [hcfg, htrk]
    exact plain_empty
  unfold restore
  dsimp only
  by_cases hout : s.outgoing = ∅
  · have hlen : (toConfChangeSingle (s.confState autoLeave)).1.length = 0 := by
      simp [toConfChangeSingle, Members.confState, hout]
    rw [if_pos hlen]
    obtain ⟨cfg', trk', hchain, h'⟩ := chain_simple hplain (viable_incoming hs hout hne)
    refine ⟨cfg', trk', hchain, ?_, ?_⟩
    · have hfold := @foldl_incoming s autoLeave hs
      rw [hout] at hfold
      exact h'.members.trans hfold
    · rw [h'.autoLeave, hauto hout]
  · have hlen : ¬ (toConfChangeSingle (s.confState autoLeave)).1.length = 0 := by
      simp [toConfChangeSingle, Members.confState, hout]
    rw [if_neg hlen]
    have hids : ∀ id ∈ ascending s.outgoing, id ≠ 0 := fun id hid =>
      hs.named id (.inr (.inl (mem_ascending.mp hid)))
    obtain ⟨cfg₁, trk₁, hchain, h₁⟩ := chain_simple hplain (Members.viable_addNode hids _)
    rw [Members.foldl_addNode hids] at h₁
    have hfirst : Plain cfg₁ trk₁ { incoming := s.outgoing } := by
      simpa using h₁
    obtain ⟨cfg', trk', henter, hmem, hauto'⟩ :=
      @enterJoint_incoming s { c with config := cfg₁, progressMap := trk₁ } autoLeave hs hout hne
        hfirst
    refine ⟨cfg', trk', ?_, hmem, hauto'⟩
    rw [chain_append]
    change (chain c (((ascending s.outgoing).map _).map _) >>= _) = _
    rw [hchain]
    exact (chain_singleton { c with config := cfg₁, progressMap := trk₁ } fun chg =>
      chg.enterJoint autoLeave (toConfChangeSingle (s.confState autoLeave)).2).trans henter

theorem equivalent_self (cs : ConfState) : cs.equivalent cs = true := by
  simp [ConfState.equivalent]

/-- A follower takes over a configuration that `Restore` builds and that is
equivalent to the `ConfState` it came from. -/
theorem restoreConfig_returns [Codec] {env : Env} {r : RaftNode} {lastIndex : Nat}
    {cs : ConfState} (hfollower : r.state = .follower)
    (hres : restore
      { config := .makeEmpty, progressMap := ∅, maxInflight := r.maxInflight,
        maxInflightBytes := r.maxInflightBytes, lastIndex } cs = .ok (cfg, trk))
    (heq : cs.equivalent cfg.confState = true) :
    ∃ r', r.restoreConfig env lastIndex cs = .ok r' := by
  obtain ⟨isLearner, hswitch⟩ := @RaftNode.switchToConfig_follower _ env r hfollower cfg trk
  refine ⟨{ r with config := cfg, trk, isLearner }, ?_⟩
  unfold RaftNode.restoreConfig
  dsimp only
  rw [hres]
  dsimp only
  rw [hswitch]
  change (assertTrue _ _ >>= fun _ => _) = _
  rw [assertTrue_of heq]
  rfl

/-- **Restore round trip.** Every configuration with voters that successful
changes make from the empty one is rebuilt by `Restore` from its `ConfState`:
voters of both halves, learners, staged learners and `AutoLeave` agree. A
follower that restores its configuration at a restart or from a snapshot thus
passes `assertConfStatesEquivalent`. -/
theorem restore_confState [Codec] {cfg : Config} {trk : ProgressMap} (h : Reachable cfg trk)
    (hvoters : cfg.voters.ids ≠ ∅) :
    (∀ c : Changer, c.config = .makeEmpty → c.progressMap = ∅ →
      ∃ cfg' trk', restore c cfg.confState = .ok (cfg', trk') ∧
        cfg'.confState = cfg.confState ∧ cfg.confState.equivalent cfg'.confState = true) ∧
      ∀ (env : Env) (r : RaftNode) (lastIndex : Nat), r.state = .follower →
        ∃ r', r.restoreConfig env lastIndex cfg.confState = .ok r' := by
  have hne : (members cfg).incoming ≠ ∅ := by
    rcases h.incoming_ne with rfl | hne
    · exact absurd rfl hvoters
    · exact hne
  have hauto : (members cfg).outgoing = ∅ → cfg.autoLeave = false := by
    intro hout
    have hjoint : joint cfg = false := by
      simpa [joint, JointConfig.outgoingIDs, members] using hout
    exact checkInvariants_autoLeave h.checked hjoint
  have hrestore : ∀ c : Changer, c.config = .makeEmpty → c.progressMap = ∅ →
      ∃ cfg' trk', restore c cfg.confState = .ok (cfg', trk') ∧
        cfg'.confState = cfg.confState := by
    intro c hcfg htrk
    obtain ⟨cfg', trk', hres, hmem, hauto'⟩ :=
      restore_members h.standing.sound hne hauto hcfg htrk
    refine ⟨cfg', trk', hres, ?_⟩
    rw [confState_eq, hmem, hauto', confState_eq]
  constructor
  · intro c hcfg htrk
    obtain ⟨cfg', trk', hres, hcs⟩ := hrestore c hcfg htrk
    refine ⟨cfg', trk', hres, hcs, ?_⟩
    rw [hcs]
    exact equivalent_self _
  · intro env r lastIndex hfollower
    obtain ⟨cfg', trk', hres, hcs⟩ := hrestore
      { config := .makeEmpty, progressMap := ∅, maxInflight := r.maxInflight,
        maxInflightBytes := r.maxInflightBytes, lastIndex } rfl rfl
    refine restoreConfig_returns hfollower hres ?_
    rw [hcs]
    exact equivalent_self _

/-- Three voters, and then a joint configuration that swaps the third for a fourth
and demotes the second. -/
def demotion : List Change :=
  [.simple [⟨.addNode, 1⟩], .simple [⟨.addNode, 2⟩], .simple [⟨.addNode, 3⟩],
    .simple [⟨.addLearnerNode, 5⟩],
    .enterJoint true [⟨.addNode, 4⟩, ⟨.removeNode, 3⟩, ⟨.addLearnerNode, 2⟩]]

/-- The changes one after the other, with the limits of `c`. -/
def Changer.runAll (c : Changer) : List Change → ConfResult
  | [] => pure (c.config, c.progressMap)
  | op :: ops => do
      let (cfg, progressMap) ← op.run c
      Changer.runAll { c with config := cfg, progressMap } ops

theorem reachable_runAll {ops : List Change} {cfg' : Config} {trk' : ProgressMap}
    (h : Reachable c.config c.progressMap) (hrun : c.runAll ops = .ok (cfg', trk')) :
    Reachable cfg' trk' := by
  induction ops generalizing c with
  | nil =>
    cases hrun
    exact h
  | cons op ops ih =>
    simp only [runAll, bind_eq_ok] at hrun
    obtain ⟨⟨cfg₁, trk₁⟩, hop, hrun⟩ := hrun
    exact @ih { c with config := cfg₁, progressMap := trk₁ } (h.change hop) hrun

/-- The joint configuration with a staged learner is one of them. -/
theorem restore_confState_demotion : ∃ cfg trk, Changer.runAll {} demotion = .ok (cfg, trk) ∧
      cfg.confState =
        { voters := [1, 4], votersOutgoing := [1, 2, 3], learners := [5], learnersNext := [2],
          autoLeave := true } ∧
      ∀ c : Changer, c.config = .makeEmpty → c.progressMap = ∅ →
        ∃ cfg' trk', restore c cfg.confState = .ok (cfg', trk') ∧
          cfg'.confState = cfg.confState ∧ cfg.confState.equivalent cfg'.confState = true := by
  obtain ⟨cfg, trk, hrun, hcs, hvoters⟩ : ∃ cfg trk,
      Changer.runAll {} demotion = .ok (cfg, trk) ∧
        cfg.confState =
          { voters := [1, 4], votersOutgoing := [1, 2, 3], learners := [5], learnersNext := [2],
            autoLeave := true } ∧ cfg.voters.ids ≠ ∅ := ⟨_, _, rfl, by decide, by decide⟩
  have hreach : Reachable cfg trk := reachable_runAll .init hrun
  exact ⟨cfg, trk, hrun, hcs, (@restore_confState wireCodec _ _ hreach hvoters).1⟩

end Cockroach.Raft.Confchange
