import Cockroach.Raft.LeaderActs
import Cockroach.Raft.Lifecycle

/-!
# A term of a leader

`Tenure` is a run of one node from its election to the end of its term: calls
with any message, ticks, configuration changes, Readies, and a storage that goes
on by itself. The storage keeps its side of the contract: it holds what it has
acknowledged (`Acked`), and it changes by compaction and by writes above the
acknowledged entries only (`Continues`).

`Tenure.invariant` reduces a fact about all these runs to the small steps of a
leader. `single_conf_change` is the first such fact: at most one configuration
change of the term is unapplied.
-/

namespace Cockroach.Raft

open Lib List RaftLog

/-! ## The leader's log -/

namespace RaftLog

variable {l l' : RaftLog}

/-- The entries of the log, as they are read. -/
def contents (l : RaftLog) : List Entry := (l.storage.join l.unstable).entries

/-- A log without a pending snapshot, whose storage has what it needs. -/
structure Settled (l : RaftLog) : Prop where
  snapshot : l.unstable.snapshot = none
  base_le : l.storage.base.index ≤ l.unstable.prev.index
  stored : l.unstable.prev.index ≤ l.storage.lastIndex
  indexed : ∀ e ∈ l.contents, e.index ≤ l.lastIndex
  applied_le : l.applied ≤ l.committed
  committed_le : l.committed ≤ l.lastIndex
  snapshot_ge : l.storage.base.index ≤ l.storage.snapshot.metadata.index

/-- Storage holds the entries up to `i`. -/
structure Acked (l : RaftLog) (i : Nat) : Prop where
  index_le : i ≤ l.lastIndex
  stored : i ≤ l.storage.lastIndex
  entries : l.storage.ents.take (i - l.storage.base.index) =
    l.contents.take (i - l.storage.base.index)

/-- The storage `st` may take the place of the current one: it has lost nothing
that is stable but a compacted prefix, which a snapshot covers. -/
structure Continues (l : RaftLog) (st : MemoryStorage) : Prop where
  base_ge : l.storage.base.index ≤ st.base.index
  base_le : st.base.index ≤ l.unstable.prev.index
  stored : l.unstable.prev.index ≤ st.lastIndex
  entries : st.ents.take (l.unstable.prev.index - st.base.index) =
    (l.storage.ents.take (l.unstable.prev.index - l.storage.base.index)).drop
      (st.base.index - l.storage.base.index)
  snapshot_ge : st.base.index ≤ st.snapshot.metadata.index

/-- A storage response is about entries that are durable, unless they have been
replaced since. -/
def Honest (l : RaftLog) (m : Message) : Prop :=
  m.type = .storageAppendResp → m.logTerm = l.accTerm → l.Acked m.index

/-- Logs that only differ in what is being written or applied. -/
structure SameRead (l l' : RaftLog) : Prop where
  storage : l'.storage = l.storage
  slice : l'.unstable.toLogSlice = l.unstable.toLogSlice
  snapshot : l'.unstable.snapshot = l.unstable.snapshot
  committed : l'.committed = l.committed
  applied : l'.applied = l.applied

theorem SameRead.lastIndex (h : SameRead l l') : l'.lastIndex = l.lastIndex :=
  congrArg LogSlice.lastIndex h.slice

theorem SameRead.contents (h : SameRead l l') : l'.contents = l.contents := by
  unfold RaftLog.contents MemoryStorage.join
  rw [h.storage, h.slice]

theorem SameRead.settled (h : SameRead l l') (hs : l.Settled) : l'.Settled where
  snapshot := h.snapshot.trans hs.snapshot
  base_le := by rw [h.storage, h.slice]; exact hs.base_le
  stored := by rw [h.storage, h.slice]; exact hs.stored
  indexed := by rw [h.contents, h.lastIndex]; exact hs.indexed
  applied_le := by rw [h.applied, h.committed]; exact hs.applied_le
  committed_le := by rw [h.committed, h.lastIndex]; exact hs.committed_le
  snapshot_ge := by rw [h.storage]; exact hs.snapshot_ge

theorem Settled.firstIndex (h : l.Settled) : l.firstIndex = l.storage.base.index + 1 := by
  unfold RaftLog.firstIndex Unstable.maybeFirstIndex
  rw [h.snapshot]
  rfl

theorem Settled.length_stored (h : l.Settled) :
    (l.storage.ents.take (l.unstable.prev.index - l.storage.base.index)).length =
      l.unstable.prev.index - l.storage.base.index := by
  have hstored := h.stored
  unfold MemoryStorage.lastIndex at hstored
  rw [length_take]
  omega

theorem Settled.length_contents (h : l.Settled) :
    l.contents.length = l.lastIndex - l.storage.base.index := by
  have hbase := h.base_le
  unfold contents MemoryStorage.join lastIndex LogSlice.lastIndex
  rw [length_append, h.length_stored]
  omega

theorem Settled.prev_le (_ : l.Settled) : l.unstable.prev.index ≤ l.lastIndex :=
  Nat.le_add_right _ _

/-! ### What the functions of the log do -/

variable {mark : LogMark} {a : LogSlice}

theorem Settled.commitTo (hs : l.Settled) (h : l.commitTo mark = .ok l') : l'.Settled := by
  rcases commitTo_eq_ok h with rfl | ⟨hlt, hle, rfl⟩
  · exact hs
  · exact { hs with applied_le := hs.applied_le.trans hlt.le, committed_le := hle }

theorem Settled.appliedTo (hs : l.Settled) {i size : Nat} (h : l.appliedTo i size = .ok l') :
    l'.Settled := by
  obtain ⟨-, hle, _, _, _, rfl⟩ := appliedTo_eq_ok h
  exact { hs with applied_le := hle }

theorem Settled.stableSnapTo (hs : l.Settled) (i : Nat) : l.stableSnapTo i = l := by
  unfold RaftLog.stableSnapTo Unstable.stableSnapTo
  rw [hs.snapshot]
  rfl

section

variable (h : l.append a = some l')
include h

theorem contents_append : l'.contents = l.contents ++ a.entries := by
  rw [append_eq_some h]
  exact (append_assoc _ _ _).symm

theorem lastIndex_append : l'.lastIndex = l.lastIndex + a.entries.length := by
  rw [append_eq_some h]
  show l.unstable.prev.index + (l.unstable.entries ++ a.entries).length = _
  rw [length_append, ← Nat.add_assoc]
  rfl

theorem Settled.append (hs : l.Settled)
    (hindex : ∀ e ∈ a.entries, e.index ≤ l.lastIndex + a.entries.length) : l'.Settled := by
  have hcontents := contents_append h
  have hlast := lastIndex_append h
  obtain rfl := append_eq_some h
  refine { hs with indexed := fun e he => ?_, committed_le := ?_ }
  · rw [hlast]
    rw [hcontents, mem_append] at he
    rcases he with he | he
    · exact (hs.indexed e he).trans (Nat.le_add_right _ _)
    · exact hindex e he
  · rw [hlast]
    exact hs.committed_le.trans (Nat.le_add_right _ _)

theorem Acked.append {i : Nat} (ha : l.Acked i) (hs : l.Settled) : l'.Acked i := by
  have hcontents := contents_append h
  have hlast := lastIndex_append h
  have hlen := hs.length_contents
  obtain rfl := append_eq_some h
  refine { ha with index_le := ?_, entries := ?_ }
  · rw [hlast]
    exact ha.index_le.trans (Nat.le_add_right _ _)
  · rw [hcontents]
    refine ha.entries.trans (take_append_of_le_length ?_).symm
    have := ha.index_le
    omega

end

/-- Entries that are durable move from the unstable log to storage. -/
theorem Acked.stableTo (hs : l.Settled)
    (ha : mark.term = l.accTerm → l.Acked mark.index) (h : l.stableTo mark = .ok l') :
    l'.contents = l.contents ∧ l'.lastIndex = l.lastIndex ∧ l'.Settled ∧
      (mark.term = l'.accTerm → l'.Acked mark.index) := by
  rcases stableTo_eq_ok h with rfl | ⟨hterm, hlt, hle, rfl⟩
  · exact ⟨rfl, rfl, hs, ha⟩
  have hacked := ha hterm
  have hbase := hs.base_le
  have hlast : (l.unstable.toLogSlice.forward mark.index).lastIndex = l.lastIndex :=
    LogSlice.lastIndex_forward hlt.le hle
  have hdrop : l.contents.drop (mark.index - l.storage.base.index) =
      l.unstable.entries.drop (mark.index - l.unstable.prev.index) := by
    have hn : mark.index - l.storage.base.index =
        (l.storage.ents.take (l.unstable.prev.index - l.storage.base.index)).length +
          (mark.index - l.unstable.prev.index) := by
      rw [hs.length_stored]
      omega
    rw [hn]
    exact drop_length_add_append _
  have hcontents : l.storage.ents.take (mark.index - l.storage.base.index) ++
      l.unstable.entries.drop (mark.index - l.unstable.prev.index) = l.contents := by
    rw [hacked.entries, ← hdrop, take_append_drop]
  refine ⟨hcontents, hlast, ⟨hs.snapshot, by dsimp only; exact hbase.trans hlt.le, hacked.stored,
    fun e he => ?_, hs.applied_le, ?_, hs.snapshot_ge⟩,
    fun _ => ⟨hle.trans hlast.ge, hacked.stored, ?_⟩⟩
  · exact (hs.indexed e (hcontents ▸ he)).trans hlast.ge
  · exact hs.committed_le.trans hlast.ge
  · exact hacked.entries.trans (congrArg _ hcontents.symm)

/-! ### Storage goes on -/

theorem Continues.contents {st : MemoryStorage} (h : l.Continues st) (hs : l.Settled) :
    RaftLog.contents { l with storage := st } =
      l.contents.drop (st.base.index - l.storage.base.index) := by
  have hle : st.base.index - l.storage.base.index ≤
      (l.storage.ents.take (l.unstable.prev.index - l.storage.base.index)).length := by
    rw [hs.length_stored]
    exact Nat.sub_le_sub_right h.base_le _
  show st.ents.take (l.unstable.prev.index - st.base.index) ++ l.unstable.entries = _
  rw [h.entries]
  exact (drop_append_of_le_length hle).symm

theorem Continues.settled {st : MemoryStorage} (h : l.Continues st) (hs : l.Settled) :
    Settled { l with storage := st } :=
  { h, hs with
    indexed := by
      intro e he
      rw [h.contents hs] at he
      exact hs.indexed e (mem_of_mem_drop he) }

end RaftLog

namespace RaftNode

section Runs

variable [Codec] {inp : Message} {r r' : RaftNode}

/-- What every small step of a leader can rely on. -/
structure Steady (inp : Message) (r : RaftNode) : Prop where
  settled : r.raftLog.Settled
  honest : r.raftLog.Honest inp
  accTerm : inp.type = .storageAppendResp → r.raftLog.accTerm = r.term

omit [Codec] in
theorem mem_stamp {term : Nat} : ∀ {es : List Entry} {index : Nat} {e : Entry},
    e ∈ stamp term index es → e.term = term ∧ index ≤ e.index ∧ e.index < index + es.length
  | _ :: es, index, e, he => by
    rw [stamp, mem_cons] at he
    rw [length_cons]
    rcases he with rfl | he
    · exact ⟨rfl, le_rfl, by dsimp only; omega⟩
    · have := mem_stamp he
      omega

omit [Codec] in
theorem lastEntryID_index {l : RaftLog} {last : EntryID} (h : l.lastEntryID = .ok last) :
    last.index = l.lastIndex := by
  unfold lastEntryID at h
  split at h
  · cases h
    rfl
  · cases h

omit [Codec] in
/-- The log is left as it is. -/
theorem Steady.of_log (hs : Steady inp r) (hlog : r'.raftLog = r.raftLog)
    (hacc : inp.type = .storageAppendResp → r'.raftLog.accTerm = r'.term) : Steady inp r' :=
  ⟨hlog ▸ hs.settled, hlog ▸ hs.honest, hacc⟩

theorem Act.steady (h : Act inp r r') (hs : Steady inp r) : Steady inp r' := by
  have hacc : inp.type = .storageAppendResp → r'.raftLog.accTerm = r'.term :=
    fun hm => h.accTerm (hs.accTerm hm)
  cases h with
  | rest h => exact hs.of_log h.raftLog hacc
  | sent | track => exact hs.of_log rfl hacc
  | reserve hcheck =>
    rw [checkConfChanges_frame hcheck] at hacc ⊢
    exact hs.of_log rfl hacc
  | @propose es es' r₁ last l pr hcheck hlast hl hpr =>
    refine ⟨hs.settled.append hl fun e he => ?_, fun hm hterm => ?_, hacc⟩
    · have := mem_stamp he
      rw [lastEntryID_index hlast] at this
      show e.index ≤ _ + (stamp _ _ _).length
      rw [length_stamp]
      omega
    · have hsame : inp.logTerm = r.raftLog.accTerm :=
        hterm.trans ((hacc hm).trans (hs.accTerm hm).symm)
      exact (hs.honest hm hsame).append hl hs.settled
  | commit h =>
    refine ⟨hs.settled.commitTo h, ?_, hacc⟩
    rcases commitTo_eq_ok h with rfl | ⟨-, -, rfl⟩
    · exact hs.honest
    · exact fun hm hterm => { hs.honest hm hterm with }
  | applied h =>
    refine ⟨hs.settled.appliedTo h, ?_, hacc⟩
    obtain ⟨-, -, _, _, _, rfl⟩ := appliedTo_eq_ok h
    exact fun hm hterm => { hs.honest hm hterm with }
  | snapped => exact hs.of_log (hs.settled.stableSnapTo _) hacc
  | stable hm h =>
    obtain ⟨-, -, hsettled, hacked⟩ := Acked.stableTo hs.settled (hs.honest hm) h
    exact ⟨hsettled, fun _ => hacked, hacc⟩

theorem Acts.steady (h : Acts inp r r') (hs : Steady inp r) : Steady inp r' := by
  induction h with
  | refl => exact hs
  | tail _ hact ih => exact hact.steady ih

/-- A run of a leader through one term. `ok` restricts the messages it is called
with, and `elected` is the last index of its log before the term. -/
inductive Tenure (ok : RaftNode → Message → Prop) (elected : Nat) : RaftNode → Prop
  | elect {env : Env} {m : Message} {err : Option StepErr} {r₀ r : RaftNode}
      (hs : r₀.state ≠ .leader) (hlog : r₀.raftLog.Settled) (hm : m.type = .voteResp)
      (h : r₀.step env m = .ok (err, r)) (hl : r.state = .leader)
      (hlast : r₀.raftLog.lastIndex = elected) : Tenure ok elected r
  | call {env : Env} {m : Message} {err : Option StepErr} {r r' : RaftNode}
      (hr : Tenure ok elected r) (hhonest : r.raftLog.Honest m) (hok : ok r m)
      (h : r.step env m = .ok (err, r')) (hl : r'.state = .leader) (ht : r'.term = r.term) :
      Tenure ok elected r'
  | tick {env : Env} {r r' : RaftNode} (hr : Tenure ok elected r) (h : r.tick env = .ok r')
      (hl : r'.state = .leader) : Tenure ok elected r'
  | confChange {env : Env} {cc : ConfChangeV2} {r r' : RaftNode} (hr : Tenure ok elected r)
      (h : r.applyConfChange env cc = .ok r') (hl : r'.state = .leader) : Tenure ok elected r'
  | ready {rn rn' : RawNode} {rd : Ready} (hr : Tenure ok elected rn.raft)
      (h : rn.ready = .ok (rd, rn')) : Tenure ok elected rn'.raft
  | storage {st : MemoryStorage} {r : RaftNode} (hr : Tenure ok elected r)
      (h : r.raftLog.Continues st) :
      Tenure ok elected { r with raftLog := { r.raftLog with storage := st } }

/-- A property that the small steps of a term keep. -/
structure Invariant (ok : RaftNode → Message → Prop) (elected : Nat) (I : RaftNode → Prop) :
    Prop where
  new : ∀ {env : Env} {r₀ : RaftNode} {pr : Progress}, r₀.raftLog.Settled →
    r₀.raftLog.lastIndex = elected → I (r₀.newLeader env (r₀.resetProgress r₀.id pr))
  hears : ∀ {m : Message} {r r' : RaftNode}, r.raftLog.Settled → ok r m → I r →
    Hears m r r' → I r'
  act : ∀ {inp : Message} {r r' : RaftNode}, Steady inp r → I r → Act inp r r' → I r'
  ready : ∀ {r : RaftNode} {l : RaftLog}, r.raftLog.SameRead l → I r →
    I { r with msgs := [], msgsAfterAppend := [], raftLog := l }
  storage : ∀ {r : RaftNode} {st : MemoryStorage}, r.raftLog.Settled → r.raftLog.Continues st →
    I r → I { r with raftLog := { r.raftLog with storage := st } }

/-- What the runs of a term keep by themselves. -/
structure Leads (r : RaftNode) : Prop where
  state : r.state = .leader
  settled : r.raftLog.Settled
  accTerm : r.raftLog.accTerm = r.term

variable {ok : RaftNode → Message → Prop} {elected : Nat} {I : RaftNode → Prop}

theorem Invariant.acts (hI : Invariant ok elected I) (h : Acts inp r r') (hs : Steady inp r)
    (hr : I r) : I r' := by
  induction h with
  | refl => exact hr
  | tail h hact ih => exact hI.act (Acts.steady h hs) ih hact

omit [Codec] in
/-- A step about no message. -/
theorem Leads.steady (h : r.Leads) : Steady { type := .hup } r :=
  ⟨h.settled, nofun, nofun⟩

theorem Leads.acts (h : r.Leads) (hs : Steady inp r) (hacts : Acts inp r r') : r'.Leads :=
  ⟨hacts.frame.2.2.trans h.state, (Acts.steady hacts hs).settled, hacts.accTerm h.accTerm⟩

omit [Codec] in
theorem Hears.frame {m : Message} (h : Hears m r r') : r'.raftLog = r.raftLog ∧
    r'.term = r.term ∧ r'.state = r.state := by
  cases h with
  | nothing | progress => exact ⟨rfl, rfl, rfl⟩

omit [Codec] in
/-- A message that a leader has taken note of. -/
theorem Leads.hears {m : Message} (h : r.Leads) (hm : Hears m r r')
    (hhonest : r.raftLog.Honest m) : r'.Leads ∧ Steady m r' := by
  obtain ⟨hlog, hterm, hstate⟩ := hm.frame
  have hacc : r'.raftLog.accTerm = r'.term := by
    rw [hlog, hterm]
    exact h.accTerm
  exact ⟨⟨hstate.trans h.state, hlog ▸ h.settled, hacc⟩,
    ⟨hlog ▸ h.settled, hlog ▸ hhonest, fun _ => hacc⟩⟩

theorem sameRead_ready {l l' : RaftLog} {ents : List Entry}
    (h : RawNode.acceptApplying l.acceptUnstable ents = .ok l') : l.SameRead l' := by
  obtain ⟨hstorage, hunstable, hcommitted, happlied, -⟩ := RawNode.acceptApplying_spec h
  exact ⟨hstorage, by rw [hunstable]; rfl, by rw [hunstable]; rfl, hcommitted, happlied⟩

/-- The rule for runs of a term. -/
theorem Tenure.invariant (hI : Invariant ok elected I) (h : Tenure ok elected r) :
    r.Leads ∧ I r := by
  induction h with
  | @elect env m err r₀ r hs hlog hm h hl hlast =>
    obtain ⟨⟨pr, -, hacts⟩, hacc⟩ := (step_elects hs hm).elim h hl
    have hne : m.type ≠ .storageAppendResp := by
      rw [hm]
      exact MessageType.noConfusion
    have hsteady : Steady m (r₀.newLeader env (r₀.resetProgress r₀.id pr)) :=
      ⟨hlog, fun h => absurd h hne, fun h => absurd h hne⟩
    exact ⟨⟨hl, (Acts.steady hacts hsteady).settled, hacc⟩,
      hI.acts hacts hsteady (hI.new hlog hlast)⟩
  | call hr hhonest hok h hl ht ih =>
    obtain ⟨hlead, hr⟩ := ih
    obtain ⟨r₁, hhears, hacts⟩ := (step_serves hlead.state).elim h hl ht
    obtain ⟨hlead₁, hsteady⟩ := hlead.hears hhears hhonest
    exact ⟨hlead₁.acts hsteady hacts,
      hI.acts hacts hsteady (hI.hears hlead.settled hok hr hhears)⟩
  | tick hr h hl ih =>
    have hacts : Acts { type := .hup } _ _ := (tick_acts ih.1.state).elim h hl
    exact ⟨ih.1.acts ih.1.steady hacts, hI.acts hacts ih.1.steady ih.2⟩
  | confChange hr h hl ih =>
    have hacts : Acts { type := .hup } _ _ := (applyConfChange_acts _).elim h hl
    exact ⟨ih.1.acts ih.1.steady hacts, hI.acts hacts ih.1.steady ih.2⟩
  | ready hr h ih =>
    obtain ⟨l, -, hl, heq, -⟩ := RawNode.ready_eq_ok h
    rw [heq]
    have hsame := sameRead_ready hl
    refine ⟨⟨ih.1.state, hsame.settled ih.1.settled, ?_⟩, hI.ready hsame ih.2⟩
    exact (congrArg LogSlice.term hsame.slice).trans ih.1.accTerm
  | storage hr h ih =>
    exact ⟨⟨ih.1.state, h.settled ih.1.settled, ih.1.accTerm⟩, hI.storage ih.1.settled h ih.2⟩

end Runs

/-! ## Configuration changes of a term -/

/-- The configuration changes of the log that are not applied yet. -/
def unappliedConfs (l : RaftLog) : List Entry :=
  l.contents.filter fun e => e.type ≠ .normal && l.applied < e.index

theorem mem_unappliedConfs {l : RaftLog} {e : Entry} : e ∈ unappliedConfs l ↔
    e ∈ l.contents ∧ e.type ≠ .normal ∧ l.applied < e.index := by
  simp [unappliedConfs]

/-- The reserved index covers every unapplied configuration change, and one of
this term is alone. -/
structure Reserved (elected : Nat) (r : RaftNode) : Prop where
  pending : ∀ e ∈ unappliedConfs r.raftLog, e.index ≤ r.pendingConfIndex
  alone : ∀ e ∈ unappliedConfs r.raftLog, elected < e.index → unappliedConfs r.raftLog = [e]

section Reserve

variable {elected : Nat} {r r' r₁ : RaftNode} {l l' : RaftLog}

/-- Nothing new is in the log. -/
theorem Reserved.sublist (h : Reserved elected r)
    (hsub : (unappliedConfs r'.raftLog).Sublist (unappliedConfs r.raftLog))
    (hpending : r.pendingConfIndex ≤ r'.pendingConfIndex) : Reserved elected r' where
  pending e he := (h.pending e (hsub.mem he)).trans hpending
  alone e he hlt := by
    have hone := h.alone e (hsub.mem he) hlt
    rw [hone] at hsub
    rcases sublist_singleton.mp hsub with hnil | hsame
    · rw [hnil] at he
      cases he
    · exact hsame

theorem unappliedConfs_congr (hc : l'.contents = l.contents) (ha : l'.applied = l.applied) :
    unappliedConfs l' = unappliedConfs l := by
  unfold unappliedConfs
  rw [hc, ha]

/-- Applying entries takes configuration changes away. -/
theorem unappliedConfs_applied (hc : l'.contents = l.contents) (ha : l.applied ≤ l'.applied) :
    (unappliedConfs l').Sublist (unappliedConfs l) := by
  unfold unappliedConfs
  rw [hc]
  refine monotone_filter_right _ fun e he => ?_
  rw [Bool.and_eq_true, decide_eq_true_eq, decide_eq_true_eq] at he ⊢
  exact ⟨he.1, ha.trans_lt he.2⟩

theorem unappliedConfs_append {xs : List Entry} (hc : l'.contents = l.contents ++ xs)
    (ha : l'.applied = l.applied) : unappliedConfs l' = unappliedConfs l ++
      xs.filter fun e => e.type ≠ .normal && l.applied < e.index := by
  unfold unappliedConfs
  rw [hc, ha, filter_append]

theorem filter_normal {xs : List Entry} {i : Nat} (h : ∀ e ∈ xs, e.type = .normal) :
    (xs.filter fun e => e.type ≠ .normal && i < e.index) = [] := by
  rw [filter_eq_nil_iff]
  intro e he
  simp [h e he]

theorem stamp_append (term : Nat) : ∀ (index : Nat) (xs ys : List Entry),
    stamp term index (xs ++ ys) = stamp term index xs ++ stamp term (index + xs.length) ys
  | _, [], _ => rfl
  | index, x :: xs, ys => by
    rw [cons_append, stamp, stamp_append, stamp, cons_append, length_cons,
      Nat.add_assoc, Nat.add_comm 1]

theorem stamp_normal {term : Nat} : ∀ {xs : List Entry} {index : Nat},
    (∀ e ∈ xs, e.type = .normal) → ∀ e ∈ stamp term index xs, e.type = .normal
  | [], _, _, _, he => by cases he
  | x :: xs, index, h, e, he => by
    obtain ⟨hx, hxs⟩ := forall_mem_cons.mp h
    rw [stamp, mem_cons] at he
    rcases he with rfl | he
    · exact hx
    · exact stamp_normal hxs e he

/-- The log has the same entries, and nothing has gone back. -/
structure Holds (r r' : RaftNode) : Prop where
  contents : r'.raftLog.contents = r.raftLog.contents
  committed : r.raftLog.committed ≤ r'.raftLog.committed
  applied : r.raftLog.applied ≤ r'.raftLog.applied
  pending : r.pendingConfIndex ≤ r'.pendingConfIndex

theorem Holds.of_log (h : r'.raftLog = r.raftLog)
    (hp : r.pendingConfIndex ≤ r'.pendingConfIndex) : Holds r r' :=
  ⟨by rw [h], by rw [h], by rw [h], hp⟩

/-- The log has grown at its end, by entries of the term, and no cursor has gone back. -/
structure Grown (r r' : RaftNode) : Prop where
  contents : ∃ xs, r'.raftLog.contents = r.raftLog.contents ++ xs ∧ ∀ e ∈ xs, e.term = r.term
  committed : r.raftLog.committed ≤ r'.raftLog.committed
  applied : r.raftLog.applied ≤ r'.raftLog.applied

theorem Grown.refl (h : r'.raftLog = r.raftLog) : Grown r r' :=
  ⟨⟨[], by rw [h, append_nil], nofun⟩, by rw [h], by rw [h]⟩

theorem Grown.trans (h : Grown r r₁) (ht : r₁.term = r.term) (h' : Grown r₁ r') : Grown r r' := by
  obtain ⟨xs, hxs, hterm⟩ := h.contents
  obtain ⟨ys, hys, hterm'⟩ := h'.contents
  refine ⟨⟨xs ++ ys, by rw [hys, hxs, append_assoc], ?_⟩, h.committed.trans h'.committed,
    h.applied.trans h'.applied⟩
  exact forall_mem_append.mpr ⟨hterm, fun e he => (hterm' e he).trans ht⟩

variable [Codec] {inp : Message}

/-- What the loop over a proposal reserves is never less than before. -/
theorem pending_mono {es es' : List Entry} (hle : r.raftLog.applied ≤ r.raftLog.lastIndex)
    (hcheck : r.checkConfChanges 0 es = .ok (r', es')) :
    r.pendingConfIndex ≤ r'.pendingConfIndex := by
  cases checkConfChanges_spec hle hcheck with
  | none => exact le_rfl
  | one hpending =>
    dsimp only
    omega

/-- A proposal: the loop has let at most one configuration change through, and
only if none was unapplied. -/
theorem Reserved.propose (h : Reserved elected r) {es es' : List Entry}
    (hs : r.raftLog.Settled) (hcheck : r.checkConfChanges 0 es = .ok (r₁, es'))
    (hc : l.contents = r.raftLog.contents ++ stamp r.term (r.raftLog.lastIndex + 1) es')
    (ha : l.applied = r.raftLog.applied) (hr' : r'.raftLog = l)
    (hp : r'.pendingConfIndex = r₁.pendingConfIndex) : Reserved elected r' := by
  have hle : r.raftLog.applied ≤ r.raftLog.lastIndex := hs.applied_le.trans hs.committed_le
  have happend := unappliedConfs_append hc ha
  have hmono := pending_mono hle hcheck
  cases checkConfChanges_spec hle hcheck with
  | none hnormal =>
    rw [filter_normal (stamp_normal hnormal), append_nil] at happend
    refine h.sublist ?_ (hmono.trans hp.ge)
    rw [hr', happend]
  | @one xs ys e hpending hbefore hafter =>
    -- Whatever was unapplied is at most the reserved index, so nothing was.
    have hnone : unappliedConfs r.raftLog = [] := by
      refine eq_nil_iff_forall_not_mem.mpr fun e he => ?_
      have h₁ := h.pending e he
      have h₂ := (mem_unappliedConfs.mp he).2.2
      omega
    rw [hnone, nil_append, stamp_append, filter_append,
      filter_normal (stamp_normal hbefore), nil_append, stamp, filter_cons,
      filter_normal (stamp_normal hafter)] at happend
    have hindex : ∀ e' ∈ unappliedConfs l,
        e' = { e with term := r.term, index := r.raftLog.lastIndex + 1 + xs.length } := by
      intro e' he'
      rw [happend] at he'
      split at he'
      · exact mem_singleton.mp he'
      · cases he'
    refine ⟨fun e' he' => ?_, fun e' he' _ => ?_⟩
    · rw [hr'] at he'
      rw [hindex e' he', hp]
      dsimp only
      omega
    · rw [hr'] at he' ⊢
      have heq := hindex e' he'
      subst heq
      rw [happend] at he' ⊢
      split at he'
      · rw [if_pos ‹_›]
      · cases he'

/-- A small step appends a proposal, or adds nothing to the log. -/
theorem Act.holds (h : Act inp r r') (hs : Steady inp r) : Holds r r' ∨
    ∃ es es' r₁, r.checkConfChanges 0 es = .ok (r₁, es') ∧
      r'.raftLog.contents = r.raftLog.contents ++ stamp r.term (r.raftLog.lastIndex + 1) es' ∧
      r'.raftLog.committed = r.raftLog.committed ∧ r'.raftLog.applied = r.raftLog.applied ∧
      r'.pendingConfIndex = r₁.pendingConfIndex := by
  have hle := hs.settled.applied_le.trans hs.settled.committed_le
  cases h with
  | rest h => exact .inl (.of_log h.raftLog h.pendingConfIndex.ge)
  | sent | track => exact .inl (.of_log rfl le_rfl)
  | reserve hcheck =>
    exact .inl (.of_log (by rw [checkConfChanges_frame hcheck]) (pending_mono hle hcheck))
  | propose hcheck hlast hl hpr =>
    have hcontents := contents_append hl
    rw [lastEntryID_index hlast] at hcontents
    obtain rfl := append_eq_some hl
    exact .inr ⟨_, _, _, hcheck, hcontents, rfl, rfl, rfl⟩
  | commit h =>
    rcases commitTo_eq_ok h with rfl | ⟨hlt, -, rfl⟩
    · exact .inl (.of_log rfl le_rfl)
    · exact .inl ⟨rfl, hlt.le, le_rfl, le_rfl⟩
  | applied h =>
    obtain ⟨hge, -, _, _, _, rfl⟩ := appliedTo_eq_ok h
    exact .inl ⟨rfl, le_rfl, hge, le_rfl⟩
  | snapped => exact .inl (.of_log (hs.settled.stableSnapTo _) le_rfl)
  | stable hm h =>
    obtain ⟨hcontents, -⟩ := Acked.stableTo hs.settled (hs.honest hm) h
    rcases stableTo_eq_ok h with rfl | ⟨-, -, -, rfl⟩ <;>
      exact .inl ⟨hcontents, le_rfl, le_rfl, le_rfl⟩

theorem Reserved.act (h : Reserved elected r) (hs : Steady inp r) (hact : Act inp r r') :
    Reserved elected r' := by
  rcases hact.holds hs with hh | ⟨es, es', r₁, hcheck, hc, -, ha, hp⟩
  · exact h.sublist (unappliedConfs_applied hh.contents hh.applied) hh.pending
  · exact h.propose hs.settled hcheck hc ha rfl hp

theorem reserved_invariant (ok : RaftNode → Message → Prop) (elected : Nat) :
    Invariant ok elected (Reserved elected) where
  new {env r₀ pr} hs hlast := by
    have hle : ∀ e ∈ unappliedConfs r₀.raftLog, e.index ≤ elected := fun e he =>
      hlast ▸ hs.indexed e (mem_unappliedConfs.mp he).1
    refine ⟨fun e he => ?_, fun e he hlt => absurd (hle e he) (not_le.mpr hlt)⟩
    exact hs.indexed e (mem_unappliedConfs.mp he).1
  hears hs hok h hhears := by
    cases hhears with
    | nothing => exact h
    | progress => exact ⟨h.pending, h.alone⟩
  act hs h hact := h.act hs hact
  ready {r l} hsame h := by
    refine h.sublist ?_ le_rfl
    rw [unappliedConfs_congr hsame.contents hsame.applied]
  storage {r st} hs hst h := by
    refine h.sublist ?_ le_rfl
    unfold unappliedConfs
    rw [hst.contents hs]
    exact (drop_sublist _ _).filter _

/-- In every state of a term, at most one configuration change that the leader
has appended is unapplied, none if there is an older one, and the reserved index
covers all of them. -/
theorem single_conf_change {ok : RaftNode → Message → Prop} (h : Tenure ok elected r) :
    ((unappliedConfs r.raftLog).filter (elected < ·.index)).length ≤ 1 ∧
    ((∃ e ∈ unappliedConfs r.raftLog, e.index ≤ elected) →
      ∀ e ∈ unappliedConfs r.raftLog, e.index ≤ elected) ∧
    ∀ e ∈ unappliedConfs r.raftLog, e.index ≤ r.pendingConfIndex := by
  have hres := (h.invariant (reserved_invariant ok elected)).2
  refine ⟨?_, ?_, hres.pending⟩
  · rcases hf : (unappliedConfs r.raftLog).filter (elected < ·.index) with _ | ⟨e, es⟩
    · rw [hf]
      exact Nat.zero_le 1
    · have he : e ∈ (unappliedConfs r.raftLog).filter (elected < ·.index) := by
        rw [hf]
        exact List.mem_cons_self
      obtain ⟨hmem, hlt⟩ := List.mem_filter.mp he
      have hone := hres.alone e hmem (of_decide_eq_true hlt)
      have hlen := List.length_filter_le (fun e : Entry => elected < e.index)
        (unappliedConfs r.raftLog)
      rw [hone] at hlen ⊢
      exact hlen
  · rintro ⟨e₀, he₀, hle₀⟩ e he
    by_contra hlt
    have hone := hres.alone e he (not_le.mp hlt)
    rw [hone, List.mem_singleton] at he₀
    exact hlt (he₀ ▸ hle₀)

/-! ## The log of a term -/

theorem Act.grown (h : Act inp r r') (hs : Steady inp r) : Grown r r' := by
  rcases h.holds hs with hh | ⟨es, es', r₁, -, hc, hcommitted, happlied, -⟩
  · exact ⟨⟨[], by rw [hh.contents, append_nil], nofun⟩, hh.committed, hh.applied⟩
  · exact ⟨⟨_, hc, fun e he => (mem_stamp he).1⟩, hcommitted.ge, happlied.ge⟩

theorem Acts.grown (h : Acts inp r r') (hs : Steady inp r) : Grown r r' := by
  induction h with
  | refl => exact .refl rfl
  | tail h hact ih => exact ih.trans (Acts.frame h).2.1 (hact.grown (Acts.steady h hs))

/-- Whatever a leader is called with, as long as it leads its term it takes nothing out of its
log. What it appends is of its term, and neither cursor goes back. -/
theorem leader_append_only {ok : RaftNode → Message → Prop} (h : Tenure ok elected r) {env : Env}
    (hcall : (∃ m err, r.raftLog.Honest m ∧ r.step env m = .ok (err, r')) ∨
      r.tick env = .ok r' ∨ ∃ cc, r.applyConfChange env cc = .ok r')
    (hl : r'.state = .leader) (ht : r'.term = r.term) : Grown r r' := by
  have hlead := (h.invariant (reserved_invariant ok elected)).1
  rcases hcall with ⟨m, err, hm, hstep⟩ | htick | ⟨cc, hconf⟩
  · obtain ⟨r₁, hhears, hacts⟩ := (step_serves hlead.state).elim hstep hl ht
    obtain ⟨hlog, hterm, -⟩ := hhears.frame
    exact (Grown.refl hlog).trans hterm (hacts.grown (hlead.hears hhears hm).2)
  · exact Acts.grown ((tick_acts hlead.state).elim htick hl) hlead.steady
  · exact Acts.grown ((applyConfChange_acts _).elim hconf hl) hlead.steady

end Reserve

/-! A node of its own elects itself and proposes twice in one message to add another. -/

def soloLog : RaftLog where
  storage := { snapshot := { metadata := { confState := { voters := [1] } } } }
  maxApplyingEntsSize := 100

def soloCandidate : Except Panic RaftNode :=
  letI := wireCodec
  newRaft {} tightSettings soloLog.storage
    >>= fun r => r.step {} { type := .hup } >>= fun x => return x.2

/-- The states on the way, the log of the candidate and the unapplied changes of the leader. -/
def soloProposal :
    Except Panic ((StateType × RaftLog) × (StateType × StateType) × Bool × List Nat) :=
  letI := wireCodec
  soloCandidate >>= fun r₀ =>
    r₀.step {} { type := .voteResp, src := 1, dst := 1, term := 1 } >>= fun x =>
      x.2.step {} { type := .prop, entries := [addNodeEntry, addNodeEntry] } >>= fun y =>
        return ((r₀.state, r₀.raftLog), (x.2.state, y.2.state), y.2.term = x.2.term,
          (unappliedConfs y.2.raftLog).map (·.index))

theorem settled_soloLog : soloLog.Settled :=
  ⟨rfl, le_rfl, le_rfl, nofun, le_rfl, le_rfl, le_rfl⟩

theorem tenure_soloProposal : let _ := wireCodec
    ∃ (r : RaftNode) (err : Option StepErr) (r' : RaftNode), Tenure (fun _ _ => True) 0 r ∧
      r.step {} { type := .prop, entries := [addNodeEntry, addNodeEntry] } = .ok (err, r') ∧
      r'.state = .leader ∧ r'.term = r.term ∧ (unappliedConfs r'.raftLog).map (·.index) = [2] := by
  intro _
  have hrun : soloProposal = .ok ((.candidate, soloLog), (.leader, .leader), true, [2]) := by
    decide +kernel
  obtain ⟨r₀, -, h⟩ := bind_eq_ok.mp hrun
  obtain ⟨⟨err, r⟩, helect, h⟩ := bind_eq_ok.mp h
  obtain ⟨⟨err', r'⟩, hprop, h⟩ := bind_eq_ok.mp h
  simp only [pure, Except.pure, Except.ok.injEq, Prod.mk.injEq, decide_eq_true_eq] at h
  obtain ⟨⟨hstate₀, hlog⟩, ⟨hstate, hstate'⟩, hterm, hconfs⟩ := h
  have hne : r₀.state ≠ .leader := by
    rw [hstate₀]
    exact StateType.noConfusion
  have hlast : r₀.raftLog.lastIndex = 0 := by
    rw [hlog]
    rfl
  exact ⟨r, err', r', .elect hne (hlog ▸ settled_soloLog) rfl helect hstate hlast, hprop, hstate',
    hterm, hconfs⟩

theorem single_conf_change_solo : ∃ r : RaftNode, @Tenure wireCodec (fun _ _ => True) 0 r ∧
    (unappliedConfs r.raftLog).map (·.index) = [2] ∧
    ∀ e ∈ unappliedConfs r.raftLog, e.index ≤ r.pendingConfIndex := by
  let _ := wireCodec
  obtain ⟨r, err, r', htenure, hprop, hstate, hterm, hconfs⟩ := tenure_soloProposal
  have htenure' : Tenure (fun _ _ => True) 0 r' :=
    .call htenure (fun h => MessageType.noConfusion h) trivial hprop hstate hterm
  exact ⟨r', htenure', hconfs, (single_conf_change htenure').2.2⟩

/-- The two entries that the leader of its own appends stand behind its empty one. -/
theorem leader_append_only_solo : ∃ r r' : RaftNode, @Tenure wireCodec (fun _ _ => True) 0 r ∧
    (unappliedConfs r'.raftLog).map (·.index) = [2] ∧ Grown r r' := by
  let _ := wireCodec
  obtain ⟨r, err, r', htenure, hprop, hstate, hterm, hconfs⟩ := tenure_soloProposal
  exact ⟨r, r', htenure, hconfs, leader_append_only htenure
    (.inl ⟨_, _, fun h => MessageType.noConfusion h, hprop⟩) hstate hterm⟩

end RaftNode

end Cockroach.Raft
