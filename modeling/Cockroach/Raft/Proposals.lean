import Cockroach.Raft.Step

/-!
# Proposals at the leader (`stepLeader` on `MsgProp`)

What the loop over the proposed entries does (`checkConfChanges_spec`): it lets at most one
configuration change through, the first that is admissible, and reserves the index of that
entry in `pendingConfIndex`; every other configuration change becomes an empty entry.

The index is reserved before `appendEntry` may still refuse the whole batch for its size. A
dropped proposal therefore leaves everything but `pendingConfIndex` alone
(`leaderProp_dropped`), and also that iff the batch has no admissible configuration change
(`dropped_proposal_unchanged`). Otherwise the leader goes on with an index reserved for an
entry that its log does not have (`dropped_proposal_reserves`).
-/

namespace Cockroach.Raft.RaftNode

open Lib

section Proposals

variable [Codec] {env : Env} {r r' : RaftNode} {m : Message}

/-- Whether the leader lets a proposed configuration change through: none may be pending,
and unless validation is disabled it must leave a joint configuration exactly when there is
one. -/
def admits (r : RaftNode) (e : Entry) : Bool :=
  e.type != .normal &&
    match Codec.confChanges e.type e.data with
    | none => false
    | some changes => decide (r.pendingConfIndex ≤ r.raftLog.applied) &&
        (r.disableConfChangeValidation || Confchange.joint r.config == changes.isEmpty)

theorem pending_le_of_admits {e : Entry} (h : r.admits e = true) :
    e.type ≠ .normal ∧ r.pendingConfIndex ≤ r.raftLog.applied := by
  unfold admits at h
  rw [Bool.and_eq_true, bne_iff_ne] at h
  refine ⟨h.1, ?_⟩
  have hcheck := h.2
  cases hchanges : Codec.confChanges e.type e.data with
  | none => rw [hchanges] at hcheck; cases hcheck
  | some changes =>
    rw [hchanges, Bool.and_eq_true, decide_eq_true_eq] at hcheck
    exact hcheck.1

variable {i : Nat} {es es' : List Entry}

/-- One pass of the loop. -/
theorem checkConfChange_eq {e e' : Entry} (h : r.checkConfChange i e = .ok (r', e')) :
    r.admits e = true ∧ r' = { r with pendingConfIndex := r.raftLog.lastIndex + i + 1 } ∧ e' = e ∨
    r.admits e = false ∧ r' = r ∧ e'.type = .normal := by
  unfold checkConfChange at h
  by_cases htype : e.type = .normal
  · rw [if_pos htype] at h
    cases h
    exact .inr ⟨by simp [admits, htype], rfl, htype⟩
  · rw [if_neg htype] at h
    cases hchanges : Codec.confChanges e.type e.data with
    | none => rw [hchanges] at h; cases h
    | some changes =>
      rw [hchanges] at h
      have hadmits : r.admits e = (decide (r.pendingConfIndex ≤ r.raftLog.applied) &&
          (r.disableConfChangeValidation || Confchange.joint r.config == changes.isEmpty)) := by
        simp [admits, htype, hchanges]
      have hle : decide (r.pendingConfIndex > r.raftLog.applied) =
          !decide (r.pendingConfIndex ≤ r.raftLog.applied) := by
        rw [Bool.eq_iff_iff, decide_eq_true_eq, Bool.not_eq_true', decide_eq_false_iff_not, not_le]
      rw [hadmits]
      simp only [hle] at h
      revert h
      cases decide (r.pendingConfIndex ≤ r.raftLog.applied) <;>
        cases r.disableConfChangeValidation <;> cases Confchange.joint r.config <;>
        cases changes.isEmpty <;> intro h <;> cases h <;> simp

theorem checkConfChanges_cons {e : Entry} (h : r.checkConfChanges i (e :: es) = .ok (r', es')) :
    ∃ r₁ e₁ es₁, r.checkConfChange i e = .ok (r₁, e₁) ∧
      r₁.checkConfChanges (i + 1) es = .ok (r', es₁) ∧ es' = e₁ :: es₁ := by
  obtain ⟨⟨r₁, e₁⟩, hone, h⟩ := bind_eq_ok.mp h
  obtain ⟨⟨r₂, es₁⟩, hrest, h⟩ := bind_eq_ok.mp h
  cases h
  exact ⟨r₁, e₁, es₁, hone, hrest, rfl⟩

/-- The loop touches nothing but the reserved index. -/
theorem checkConfChanges_frame (h : r.checkConfChanges i es = .ok (r', es')) :
    r' = { r with pendingConfIndex := r'.pendingConfIndex } := by
  induction es generalizing i r es' with
  | nil =>
    cases h
    rfl
  | cons e es ih =>
    obtain ⟨r₁, e₁, es₁, hone, hrest, -⟩ := checkConfChanges_cons h
    have hframe := ih hrest
    rcases checkConfChange_eq hone with ⟨-, rfl, -⟩ | ⟨-, rfl, -⟩
    · exact hframe
    · exact hframe

/-- Where nothing is admitted, the node stays and every entry left is a normal one. -/
theorem checkConfChanges_refused
    (h : r.checkConfChanges i es = .ok (r', es')) (hrefuse : ∀ e ∈ es, r.admits e = false) :
    r' = r ∧ ∀ e ∈ es', e.type = .normal := by
  induction es generalizing i es' with
  | nil =>
    cases h
    exact ⟨rfl, nofun⟩
  | cons e es ih =>
    obtain ⟨r₁, e₁, es₁, hone, hrest, rfl⟩ := checkConfChanges_cons h
    obtain ⟨he, hes⟩ := List.forall_mem_cons.mp hrefuse
    rcases checkConfChange_eq hone with ⟨hadm, -⟩ | ⟨-, rfl, hnormal⟩
    · rw [he] at hadm
      cases hadm
    · obtain ⟨rfl, hnormals⟩ := ih hrest hes
      exact ⟨rfl, List.forall_mem_cons.mpr ⟨hnormal, hnormals⟩⟩

/-- The index that is reserved for a change is ahead of what is applied, so the rest is refused. -/
theorem admits_reserved (happlied : r.raftLog.applied ≤ r.raftLog.lastIndex) (e : Entry) :
    admits { r with pendingConfIndex := r.raftLog.lastIndex + i + 1 } e = false := by
  refine Bool.eq_false_iff.mpr fun hadm => ?_
  have hle : r.raftLog.lastIndex + i + 1 ≤ r.raftLog.applied := (pending_le_of_admits hadm).2
  omega

/-- A node that stays has not admitted anything. -/
theorem refused_of_checkConfChanges (happlied : r.raftLog.applied ≤ r.raftLog.lastIndex)
    (h : r.checkConfChanges i es = .ok (r, es')) : ∀ e ∈ es, r.admits e = false := by
  induction es generalizing i es' with
  | nil => nofun
  | cons e es ih =>
    obtain ⟨r₁, e₁, es₁, hone, hrest, -⟩ := checkConfChanges_cons h
    rcases checkConfChange_eq hone with ⟨hadm, rfl, -⟩ | ⟨hno, rfl, -⟩
    · obtain ⟨hsame, -⟩ := checkConfChanges_refused hrest fun e _ => admits_reserved happlied e
      have hpending := (pending_le_of_admits hadm).2
      have hindex : r.pendingConfIndex = r.raftLog.lastIndex + i + 1 :=
        congrArg pendingConfIndex hsame
      omega
    · exact List.forall_mem_cons.mpr ⟨hno, ih hrest⟩

/-- What the loop leaves: no configuration change, or the one it reserved the index of. -/
inductive Checked (r : RaftNode) (i : Nat) : RaftNode → List Entry → Prop
  | none {es : List Entry} (hnormal : ∀ e ∈ es, e.type = .normal) : Checked r i r es
  | one {xs ys : List Entry} {e : Entry} (hpending : r.pendingConfIndex ≤ r.raftLog.applied)
      (hbefore : ∀ x ∈ xs, x.type = .normal) (hafter : ∀ y ∈ ys, y.type = .normal) :
      Checked r i { r with pendingConfIndex := r.raftLog.lastIndex + (i + xs.length) + 1 }
        (xs ++ e :: ys)

theorem checkConfChanges_spec (happlied : r.raftLog.applied ≤ r.raftLog.lastIndex)
    (h : r.checkConfChanges i es = .ok (r', es')) : Checked r i r' es' := by
  induction es generalizing i es' with
  | nil =>
    cases h
    exact .none nofun
  | cons e es ih =>
    obtain ⟨r₁, e₁, es₁, hone, hrest, rfl⟩ := checkConfChanges_cons h
    rcases checkConfChange_eq hone with ⟨hadm, rfl, rfl⟩ | ⟨-, rfl, hnormal⟩
    · obtain ⟨rfl, hnormals⟩ :=
        checkConfChanges_refused hrest fun e _ => admits_reserved happlied e
      have hbefore : ∀ x ∈ ([] : List Entry), x.type = .normal := nofun
      exact .one (pending_le_of_admits hadm).2 hbefore hnormals
    · cases ih hrest with
      | none hnormals => exact .none (List.forall_mem_cons.mpr ⟨hnormal, hnormals⟩)
      | @one xs ys e hpending hbefore hafter =>
        have hindex : r₁.raftLog.lastIndex + (i + 1 + xs.length) + 1 =
            r₁.raftLog.lastIndex + (i + (e₁ :: xs).length) + 1 := by
          rw [List.length_cons]
          omega
        rw [hindex, ← List.cons_append]
        exact .one hpending (List.forall_mem_cons.mpr ⟨hnormal, hbefore⟩) hafter

/-! ## Dropped proposals -/

theorem leaderProp_dropped (h : r.leaderProp env m = .ok (some .proposalDropped, r')) :
    (r.trk[r.id]?.isNone ∨ r.leadTransferee ≠ None) ∧ r' = r ∨
      (r.trk[r.id]?.isSome ∧ r.leadTransferee = None) ∧
        ∃ entries, r.checkConfChanges 0 m.entries = .ok (r', entries) := by
  obtain ⟨-, -, h⟩ := bind_eq_ok.mp h
  by_cases hrefuse : r.trk[r.id]?.isNone ∨ r.leadTransferee ≠ None
  · rw [if_pos hrefuse] at h
    cases h
    exact .inl ⟨hrefuse, rfl⟩
  · rw [if_neg hrefuse] at h
    rw [not_or, not_not, Bool.not_eq_true, Option.isNone_eq_false_iff] at hrefuse
    obtain ⟨⟨r₁, entries⟩, hcheck, h⟩ := bind_eq_ok.mp h
    obtain ⟨appended, -, h⟩ := bind_eq_ok.mp h
    cases appended with
    | none =>
      cases h
      exact .inr ⟨hrefuse, entries, hcheck⟩
    | some r₂ =>
      obtain ⟨r₃, -, h⟩ := bind_eq_ok.mp h
      cases h

/-- A dropped proposal changes at most `pendingConfIndex`, and not even that iff it is dropped
before its entries are looked at or the leader would not have admitted any of them as a
configuration change. -/
theorem dropped_proposal_unchanged (happlied : r.raftLog.applied ≤ r.raftLog.lastIndex)
    (hprop : m.type = .prop) (hdrop : r.stepLeader env m = .ok (some .proposalDropped, r')) :
    r' = { r with pendingConfIndex := r'.pendingConfIndex } ∧
      (r' = r ↔ r.trk[r.id]?.isNone ∨ r.leadTransferee ≠ None ∨
        ∀ e ∈ m.entries, r.admits e = false) := by
  unfold stepLeader at hdrop
  rw [hprop] at hdrop
  rcases leaderProp_dropped hdrop with ⟨hrefuse, rfl⟩ | ⟨⟨hsome, htransferee⟩, entries, hcheck⟩
  · exact ⟨rfl, fun _ => hrefuse.imp_right .inl, fun _ => rfl⟩
  · refine ⟨checkConfChanges_frame hcheck, fun hsame => ?_, ?_⟩
    · exact .inr (.inr (refused_of_checkConfChanges happlied (hsame ▸ hcheck)))
    · rintro (hnone | hne | hrefuse)
      · rw [Option.isNone_iff_eq_none.mp hnone] at hsome
        cases hsome
      · exact absurd htransferee hne
      · exact (checkConfChanges_refused hcheck hrefuse).1

end Proposals

/-! A leader of a cluster of one that limits its uncommitted entries to one byte. -/

def tightSettings : Settings where
  id := 1
  electionTick := 10
  heartbeatTick := 1
  maxSizePerMsg := 100
  maxInflightMsgs := 10
  maxUncommittedEntriesSize := 1

/-- The node elects itself and appends a proposal of four bytes. -/
def tightLeader : Except Panic RaftNode :=
  letI := wireCodec
  newRaft {} tightSettings { snapshot := { metadata := { confState := { voters := [1] } } } }
    >>= fun r => r.step {} { type := .hup } >>= fun x =>
      x.2.step {} { type := .voteResp, src := 1, dst := 1, term := 1 } >>= fun x =>
        x.2.step {} { type := .prop, entries := [{ data := [1, 2, 3, 4] }] } >>= fun x =>
          return x.2

def addNodeEntry : Entry := { type := .confChangeV2, data := [8, 0, 18, 4, 8, 0, 16, 2] }

/-- The leader proposes `e`: its role, the error, the reserved index before and after, and
whether `addNodeEntry` is admitted before and after. -/
def tightPropose (e : Entry) :
    Except Panic (StateType × Option StepErr × (Nat × Nat) × (Bool × Bool)) :=
  letI := wireCodec
  tightLeader >>= fun r => r.stepLeader {} { type := .prop, entries := [e] } >>= fun x =>
    return (r.state, x.1, (r.pendingConfIndex, x.2.pendingConfIndex),
      (r.admits addNodeEntry, x.2.admits addNodeEntry))

/-- A configuration change that is dropped for its size keeps its index reserved: the leader
refuses the next one although its log has none. -/
theorem dropped_proposal_reserves : ∃ r r' : RaftNode, tightLeader = .ok r ∧ r.state = .leader ∧
      @stepLeader wireCodec {} r { type := .prop, entries := [addNodeEntry] } =
        .ok (some .proposalDropped, r') ∧
      r.pendingConfIndex = 0 ∧ r'.pendingConfIndex = 3 ∧
      @admits wireCodec r addNodeEntry = true ∧
      @admits wireCodec r' addNodeEntry = false := by
  have hrun : tightPropose addNodeEntry =
      .ok (.leader, some .proposalDropped, (0, 3), (true, false)) := rfl
  obtain ⟨r, hr, h⟩ := bind_eq_ok.mp hrun
  obtain ⟨⟨err, r'⟩, hstep, h⟩ := bind_eq_ok.mp h
  simp only [pure, Except.pure, Except.ok.injEq, Prod.mk.injEq] at h
  obtain ⟨hstate, rfl, ⟨hbefore, hafter⟩, hadm, hrefuse⟩ := h
  exact ⟨r, r', hr, hstate, hstep, hbefore, hafter, hadm, hrefuse⟩

/-- A normal entry that is dropped at the same leader leaves it as it was. -/
theorem dropped_proposal_unchanged_normal : ∃ r : RaftNode, tightLeader = .ok r ∧
      @stepLeader wireCodec {} r { type := .prop, entries := [{ data := [5] }] } =
        .ok (some .proposalDropped, r) := by
  have hrun : tightPropose { data := [5] } =
      .ok (.leader, some .proposalDropped, (0, 0), (true, true)) := rfl
  obtain ⟨r, hr, h⟩ := bind_eq_ok.mp hrun
  obtain ⟨⟨err, r'⟩, hstep, h⟩ := bind_eq_ok.mp h
  simp only [pure, Except.pure, Except.ok.injEq, Prod.mk.injEq] at h
  obtain ⟨-, rfl, -⟩ := h
  have happlied : r.raftLog.applied ≤ r.raftLog.lastIndex := by
    cases hr
    decide
  have hsame : r' = r := by
    refine (@dropped_proposal_unchanged wireCodec _ _ _ _ happlied rfl hstep).2.mpr
      (.inr (.inr fun e he => ?_))
    rw [List.mem_singleton.mp he]
    rfl
  rw [hsame] at hstep
  exact ⟨r, hr, hstep⟩

end Cockroach.Raft.RaftNode
