import Cockroach.Raft.Lifecycle

/-!
# A node and its application

`Application` puts a `RawNode` together with what surrounds it in asynchronous
mode: the queue of the append thread, the batches given to the apply thread, and
the responses of both, which may be delivered late, repeatedly, in any order or
never. Other messages are arbitrary. `handed` is everything the application was
ever given, in order.

`applied_exactly_once` is the result: the application sees every index at most
once, in order, and without a gap except where a snapshot takes its place.
-/

namespace Cockroach.Raft

open Lib List RaftLog RaftNode

/-- What a Ready gives to the state machine. -/
inductive Handed
  | entry (e : Entry)
  | snapshot (s : Snapshot)
  deriving DecidableEq, Repr

namespace Handed

/-- The position of the state machine after this. -/
def index : Handed → Nat
  | entry e => e.index
  | snapshot s => s.metadata.index

/-- `hs` continues from position `i`: entries follow one another, snapshots go
forward. -/
def Visits : Nat → List Handed → Prop
  | _, [] => True
  | i, entry e :: hs => e.index = i + 1 ∧ Visits (i + 1) hs
  | i, snapshot s :: hs => i < s.metadata.index ∧ Visits s.metadata.index hs

/-- The position after `hs`, from position `i`. -/
def position (i : Nat) (hs : List Handed) : Nat := (hs.getLast?.map index).getD i

theorem position_cons (i : Nat) (h : Handed) (hs : List Handed) :
    position i (h :: hs) = position h.index hs := by
  unfold position
  cases hs with
  | nil => rfl
  | cons h' hs => simp [getLast?_cons]

theorem visits_cons {i : Nat} {h : Handed} {hs : List Handed} :
    Visits i (h :: hs) ↔ Visits i [h] ∧ Visits h.index hs := by
  cases h with
  | entry e =>
    simp only [Visits, index, and_true]
    exact and_congr_right fun he => by rw [he]
  | snapshot s => simp only [Visits, index, and_true]

theorem visits_append : ∀ {xs : List Handed} {i : Nat} {ys : List Handed},
    Visits i xs → Visits (position i xs) ys → Visits i (xs ++ ys)
  | [], _, _, _, hy => hy
  | x :: xs, i, ys, hx, hy => by
    obtain ⟨h1, h2⟩ := visits_cons.mp hx
    rw [position_cons] at hy
    exact visits_cons.mpr ⟨h1, visits_append h2 hy⟩

theorem position_append (i : Nat) (xs ys : List Handed) :
    position i (xs ++ ys) = position (position i xs) ys := by
  unfold position
  cases hy : ys.getLast? with
  | none =>
    rw [getLast?_eq_none_iff.mp hy, List.append_nil]
    rfl
  | some y => simp [getLast?_append, hy]

theorem Visits.le_position : ∀ {hs : List Handed} {i : Nat}, Visits i hs → i ≤ position i hs
  | [], _, _ => le_rfl
  | h :: hs, i, hv => by
    obtain ⟨h1, h2⟩ := visits_cons.mp hv
    rw [position_cons]
    refine le_trans ?_ h2.le_position
    cases h with
    | entry e =>
      show i ≤ e.index
      exact (Nat.le_succ i).trans h1.1.ge
    | snapshot s => exact h1.1.le

theorem position_entries (i : Nat) (es : List Entry) :
    position i (es.map entry) = (es.getLast?.map (·.index)).getD i := by
  unfold position
  rw [getLast?_map, Option.map_map]
  rfl

/-- Consecutive entries. -/
theorem visits_entries : ∀ {es : List Entry} {i : Nat},
    (∀ n e, es[n]? = some e → e.index = i + 1 + n) → Visits i (es.map entry)
  | [], _, _ => trivial
  | e :: es, i, h => by
    refine ⟨h 0 e rfl, visits_entries fun n e' he' => ?_⟩
    have := h (n + 1) e' he'
    omega

end Handed

/-- What a Ready hands to the application: a snapshot, then entries. -/
def Ready.handed (rd : Ready) : List Handed :=
  rd.snapshot.toList.map .snapshot ++ rd.committedEntries.map .entry

/-- A node, the work it handed out, and what was handed to the state machine. -/
structure Application where
  node : RawNode
  queue : List StorageAppend := []
  done : List StorageAppend := []
  applies : List StorageApply := []
  handed : List Handed := []

namespace Application

/-- The log of the node. -/
abbrev log (s : Application) : RaftLog := s.node.raft.raftLog

/-- A call into the node has returned `r`. -/
abbrev withRaft (s : Application) (r : RaftNode) : Application :=
  { s with node := { s.node with raft := r } }

section Runs

variable [Codec]

/-- The application's steps. `call` is any message but a storage response: `Step`,
`Campaign`, `Propose` and the other wrappers all end in it. A step that panics is
none. -/
inductive Step : Application → Application → Prop
  | call {s : Application} {env : Env} {m : Message} {err : Option StepErr} {r : RaftNode}
      (hm : m.type ≠ .storageAppendResp ∧ m.type ≠ .storageApplyResp)
      (h : s.node.raft.step env m = .ok (err, r)) : Step s (s.withRaft r)
  | tick {s : Application} {env : Env} {r : RaftNode} (h : s.node.raft.tick env = .ok r) :
      Step s (s.withRaft r)
  | confChange {s : Application} {env : Env} {cc : ConfChangeV2} {r : RaftNode}
      (h : s.node.raft.applyConfChange env cc = .ok r) : Step s (s.withRaft r)
  | ready {s : Application} {rd : Ready} {node : RawNode} (h : s.node.ready = .ok (rd, node)) :
      Step s { s with
        node
        queue := s.queue ++ rd.append.toList
        applies := s.applies ++ rd.apply.toList
        handed := s.handed ++ rd.handed }
  | persist {s : Application} {w : StorageAppend} {queue : List StorageAppend}
      {ms : MemoryStorage} (hq : s.queue = w :: queue) (h : w.persist s.log.storage = .ok ms) :
      Step s { s.withRaft { s.node.raft with raftLog := { s.log with storage := ms } } with
        queue
        done := w :: s.done }
  | appendResp {s : Application} {env : Env} {w : StorageAppend} {m : Message}
      {err : Option StepErr} {r : RaftNode} (hw : w ∈ s.done) (hm : m ∈ w.responses)
      (h : s.node.raft.step env m = .ok (err, r)) : Step s (s.withRaft r)
  | applyResp {s : Application} {env : Env} {a : StorageApply} {err : Option StepErr}
      {r : RaftNode} (ha : a ∈ s.applies) (h : s.node.raft.step env a.response = .ok (err, r)) :
      Step s (s.withRaft r)

/-- The states of the runs that start with `NewRawNode`; `start` is the applied
index the node starts with. -/
inductive Reachable (c : Settings) (storage : MemoryStorage) (start : Nat) : Application → Prop
  | init {env : Env} {node : RawNode} (h : RawNode.new env c storage = .ok node)
      (hstart : node.raft.raftLog.applied = start) : Reachable c storage start { node }
  | step {s s' : Application} (h : Reachable c storage start s) (hs : Step s s') :
      Reachable c storage start s'

end Runs

/-- The cursors of a log whose application was given everything up to `last`. A
snapshot that is pending is either still ahead of `last`, or was given to the
append thread and is exactly at `last`. -/
structure Cursors (A : LogSlice) (l : RaftLog) (last : Nat) : Prop where
  applied_le : l.applied ≤ l.applying
  applying_le : l.applying ≤ last
  last_le : last ≤ l.committed
  settled : l.unstable.snapshot = none → l.applying = last ∧ A.prev.index ≤ last
  inProgress : ∀ s ∈ l.unstable.snapshot, l.unstable.snapshotInProgress = true →
    last = s.metadata.index
  pending : ∀ s ∈ l.unstable.snapshot, l.unstable.snapshotInProgress = false →
    last < s.metadata.index

/-- A storage response is about something handed out before. -/
def Past (last : Nat) (inp : Message) : Prop :=
  (inp.type = .storageAppendResp → ∀ s ∈ inp.snapshot, s.metadata.index ≤ last) ∧
  (inp.type = .storageApplyResp → ∀ e ∈ inp.entries.getLast?, e.index ≤ last)

namespace Cursors

variable {A A' : LogSlice} {l : RaftLog} {last : Nat}

/-- Where the log starts matters only while no snapshot is pending. -/
theorem rebase (h : Cursors A l last) (hprev : l.unstable.snapshot = none → A'.prev = A.prev) :
    Cursors A' l last := by
  refine { h with settled := fun hn => ?_ }
  rw [hprev hn]
  exact h.settled hn

/-- No snapshot is pending, and everything handed out is being applied. -/
theorem of_none (hn : l.unstable.snapshot = none) (ha : l.applied ≤ l.applying)
    (hi : l.applying = last) (hc : last ≤ l.committed) (hb : A.prev.index ≤ last) :
    Cursors A l last where
  applied_le := ha
  applying_le := hi.le
  last_le := hc
  settled _ := ⟨hi, hb⟩
  inProgress s hs := by
    rw [hn] at hs
    cases hs
  pending s hs := by
    rw [hn] at hs
    cases hs

/-- The applied cursor moves up to something handed out before. -/
theorem apply (h : Cursors A l last) {i : Nat} (hi : i ≤ last) :
    Cursors A { l with applied := i, applying := max l.applying i } last := by
  refine { h with
    applied_le := le_max_right _ _
    applying_le := max_le h.applying_le hi
    settled := fun hn => ?_ }
  obtain ⟨heq, hle⟩ := h.settled hn
  exact ⟨by rw [heq, max_eq_left hi], hle⟩

end Cursors

variable {queue done : List LogWrite} {s : Application} {start : Nat} {A : LogSlice} {last : Nat}

/-- Every move of the log keeps the cursors in order. -/
theorem Cursors.move [Codec] {inp : Message} {l l' : RaftLog}
    (h : LogMove inp l l') (hi : LogInv A l queue done)
    (hc : Cursors A l last) (ht : Truthful done inp) (hp : Past last inp) :
    ∃ A', LogInv A' l' queue done ∧ Cursors A' l' last := by
  obtain ⟨A', hi', hA⟩ := h.logInv hi ht
  refine ⟨A', hi', ?_⟩
  have hprev : l'.unstable.snapshot = none → A'.prev = A.prev := by
    intro hn
    rcases hA with h | ⟨s, hs, -⟩
    · exact h
    · rw [hn] at hs
      cases hs
  refine .rebase ?_ hprev
  cases h with
  | append hv h =>
    obtain rfl := append_eq_some h
    exact { hc with }
  | accept hv hc' h =>
    obtain ⟨u, rfl, hs, hsp⟩ := (maybeAppend_frame _ _).elim h l' rfl
    refine { hc with settled := ?_, inProgress := ?_, pending := ?_ } <;> dsimp only <;> rw [hs]
    · exact hc.settled
    · rw [hsp]
      exact hc.inProgress
    · rw [hsp]
      exact hc.pending
  | commit h =>
    obtain ⟨-, c, hle, rfl⟩ := (hi.commitTo _).elim h
    exact { hc with last_le := hc.last_le.trans hle }
  | restore hm hv hgt h =>
    obtain ⟨u, rfl, hu, hnew⟩ := restore_eq_some h
    have hlt : last < (msgSnapshot inp).lastIndex := hc.last_le.trans_lt hgt
    refine { hc with
      last_le := hlt.le
      settled := fun hn => ?_
      inProgress := fun s' _ hp => ?_
      pending := fun s' hs' _ => ?_ }
    · cases hu.symm.trans hn
    · cases hnew.symm.trans hp
    · cases hu.symm.trans hs'
      exact hlt
  | ackSnapshot hm hs h =>
    rename_i s
    have hle : s.metadata.index ≤ last := hp.1 hm s hs
    have happ : max s.metadata.index l.applied ≤ last :=
      max_le hle (hc.applied_le.trans hc.applying_le)
    obtain ⟨_, -, h⟩ := bind_eq_ok.mp h
    cases h
    unfold stableSnapTo Unstable.stableSnapTo
    by_cases hidx : l.unstable.snapshot.map (·.metadata.index) = some s.metadata.index
    · -- The pending snapshot is the one acknowledged: it was in progress, and is at `last`.
      obtain ⟨s', hs', heq⟩ := Option.map_eq_some_iff.mp hidx
      have hlast : last = s'.metadata.index := by
        cases hprog : l.unstable.snapshotInProgress with
        | true => exact hc.inProgress s' hs' hprog
        | false =>
          have := hc.pending s' hs' hprog
          omega
      have hbase : A.prev.index = last := by
        rw [hlast, ← (hi.snapshot s' hs').2.1]
        rfl
      have happlying : max l.applying (max s.metadata.index l.applied) = last := by
        have := hc.applying_le
        omega
      simp only [hidx, if_true]
      exact .of_none rfl (le_max_right _ _) happlying hc.last_le hbase.le
    · simp only [hidx, if_false]
      exact { hc.apply happ with }
  | ackEntries hm hne h =>
    rcases stableTo_eq_ok h with rfl | ⟨-, -, -, rfl⟩
    · exact hc
    · exact { hc with }
  | ackApply hm he h =>
    obtain ⟨_, -, h⟩ := bind_eq_ok.mp h
    cases h
    have happ := hc.applied_le.trans hc.applying_le
    exact { hc.apply (max_le (hp.2 hm _ he) happ) with }

/-- The same for a whole call. -/
theorem Cursors.moves [Codec] {inp : Message} {l l' : RaftLog}
    (h : LogMoves inp l l') (hi : LogInv A l queue done)
    (hc : Cursors A l last) (ht : Truthful done inp) (hp : Past last inp) :
    ∃ A', LogInv A' l' queue done ∧ Cursors A' l' last := by
  induction h with
  | refl => exact ⟨A, hi, hc⟩
  | tail _ hmove ih =>
    obtain ⟨A', hi', hc'⟩ := ih
    exact Cursors.move hmove hi' hc' ht hp

/-- What `nextCommittedEnts` hands out: entries that follow the last one, are
committed, and are in storage. -/
theorem nextCommittedEnts_spec [Codec] {l : RaftLog}
    (hi : LogInv A l queue done) (hc : Cursors A l last) :
    Returns (l.nextCommittedEnts false) fun ents =>
      (ents ≠ [] → l.unstable.snapshot = none) ∧
      ∀ n e, ents[n]? = some e → e.index = l.applying + 1 + n ∧ e.index ≤ l.committed ∧
        e.index ≤ l.unstable.prev.index ∧ e ∈ l.storage.ents := by
  have hnil : (([] : List Entry) ≠ [] → l.unstable.snapshot = none) ∧
      ∀ n e, ([] : List Entry)[n]? = some e → e.index = l.applying + 1 + n ∧
        e.index ≤ l.committed ∧ e.index ≤ l.unstable.prev.index ∧ e ∈ l.storage.ents :=
    ⟨fun h => absurd rfl h, fun n e h => by simp at h⟩
  unfold nextCommittedEnts
  refine Sat.ite (fun _ => hnil) fun _ => Sat.ite (fun _ => hnil) fun hsnap => ?_
  have hnone : l.unstable.snapshot = none := by
    simpa [hasNextOrInProgressSnapshot] using hsnap
  refine Sat.ite (fun _ => hnil) fun hlt => ?_
  refine Returns.seq fun _ _ => ?_
  obtain ⟨happ, hbase⟩ := hc.settled hnone
  have hmax : l.maxAppliableIndex false = min l.committed l.unstable.prev.index := rfl
  rw [hmax] at hlt ⊢
  have hlast := hi.prev_le
  obtain ⟨m, hslice, -, -⟩ := @LogInv.slice_eq (l.applying + 1)
    (min l.committed l.unstable.prev.index + 1) (l.maxApplyingEntsSize - l.applyingEntsSize)
    A l queue done hi _ (by omega) (by omega) (by omega)
  rw [hslice]
  refine ⟨fun _ => hnone, fun n e he => ?_⟩
  rw [getElem?_take] at he
  split_ifs at he
  obtain ⟨hA, hn⟩ := LogSlice.getElem?_readEntries he
  have hidx : e.index = l.applying + 1 + n := by
    rw [hi.chained.index hA]
    omega
  refine ⟨hidx, by omega, by omega, ?_⟩
  -- Storage agrees with the log up to `unstable.prev`.
  have hst := (hi.stable hnone).head.ents
  have hpos : l.applying + 1 - A.prev.index - 1 + n < l.unstable.prev.index - A.prev.index := by
    omega
  have hget := congrArg (·[l.applying + 1 - A.prev.index - 1 + n]?) hst
  rw [getElem?_take, getElem?_take, if_pos hpos, if_pos hpos, hA] at hget
  exact mem_of_getElem? hget

/-- The messages a performed write releases: at most one is a storage response,
and that one is about the write. -/
def Acks (w : LogWrite) (m : Message) : Prop :=
  m.type ≠ .storageApplyResp ∧ (m.type = .storageAppendResp →
    m.snapshot = w.snapshot ∧ m.index = w.index ∧ (w.index ≠ 0 → m.logTerm = w.term))

/-- What holds in every state of a run. -/
structure Inv (start : Nat) (s : Application) : Prop where
  log : ∃ A, LogInv A s.log (s.queue.map (·.toLogWrite)) (s.done.map (·.toLogWrite)) ∧
    Cursors A s.log (Handed.position start s.handed)
  visits : Handed.Visits start s.handed
  writes : ∀ w ∈ s.done ++ s.queue, (∀ m ∈ w.responses, Acks w.toLogWrite m) ∧
    ∀ t ∈ w.snapshot, t.metadata.index ≤ Handed.position start s.handed
  msgs : ∀ m ∈ s.node.raft.msgsAfterAppend, RaftNode.sentAfterAppend m.type = true
  applies : ∀ a ∈ s.applies, a.response.type = .storageApplyResp ∧
    ∀ e ∈ a.response.entries.getLast?, e.index ≤ Handed.position start s.handed

theorem Inv.reconfig (h : s.Inv start) (cfg : Config) (trk : ProgressMap) (isLearner : Bool) :
    (s.withRaft { s.node.raft with config := cfg, trk, isLearner }).Inv start :=
  ⟨h.log, h.visits, h.writes, h.msgs, h.applies⟩

theorem sentAfterAppend_ne {t : MessageType} (h : sentAfterAppend t = true) :
    t ≠ .storageAppendResp ∧ t ≠ .storageApplyResp := by
  cases t <;> simp_all [sentAfterAppend]

/-- Messages that are no storage responses need no excuse. -/
theorem past_of_ne {done : List LogWrite} {m : Message}
    (hm : m.type ≠ .storageAppendResp ∧ m.type ≠ .storageApplyResp) :
    Truthful done m ∧ Past last m :=
  ⟨fun h => absurd h hm.1, fun h => absurd h hm.1, fun h => absurd h hm.2⟩

theorem Inv.persist {w : StorageAppend}
    {queue : List StorageAppend} {ms : MemoryStorage} (h : s.Inv start)
    (hq : s.queue = w :: queue) (hw : w.persist s.log.storage = .ok ms) :
    Inv start { s.withRaft { s.node.raft with raftLog := { s.log with storage := ms } } with
      queue
      done := w :: s.done } := by
  obtain ⟨A, hi, hc⟩ := h.log
  rw [hq] at hi
  have hexec : LogInv A { s.log with storage := ms } (queue.map (·.toLogWrite))
      ((w :: s.done).map (·.toLogWrite)) := by
    unfold StorageAppend.persist at hw
    dsimp only at hw
    split_ifs at hw
    · exact hi.execute.elim hw
    · exact (hi.setHardState w.hardState).execute.elim hw
  refine ⟨⟨A, hexec, { hc with }⟩, h.visits, ?_, h.msgs,
    h.applies⟩
  intro v hv
  refine h.writes v ?_
  rw [hq]
  simp only [mem_append, mem_cons] at hv ⊢
  rcases hv with (rfl | hv) | hv
  · exact .inr (.inl rfl)
  · exact .inl hv
  · exact .inr (.inr hv)

/-- The responses of the write of a Ready are about that write. -/
theorem acks_newStorageAppendMsg {rn : RawNode}
    (h : ∀ m ∈ rn.raft.msgsAfterAppend, sentAfterAppend m.type = true) :
    ∀ m ∈ rn.newStorageAppendMsg.responses, Acks rn.raft.raftLog.nextWrite m := by
  intro m hm
  rcases mem_append.mp hm with hm | hm
  · obtain ⟨h1, h2⟩ := sentAfterAppend_ne (h m hm)
    exact ⟨h2, fun h => absurd h h1⟩
  · split_ifs at hm with hneed
    · obtain rfl := mem_singleton.mp hm
      refine ⟨nofun, fun _ => ⟨rfl, rfl, fun _ => ?_⟩⟩
      exact if_pos hneed
    · cases hm

variable [Codec]

/-- A call about a message that is no storage response, or a true one. -/
theorem Inv.call {env : Env} {m : Message} {r : RaftNode}
    (h : s.Inv start) (hs : Steps env m s.node.raft r)
    (ht : Truthful (s.done.map (·.toLogWrite)) m) (hp : Past (Handed.position start s.handed) m) :
    (s.withRaft r).Inv start := by
  obtain ⟨A, hi, hc⟩ := h.log
  obtain ⟨A', hi', hc'⟩ := Cursors.moves hs.logMoves hi hc ht hp
  refine ⟨⟨A', hi', hc'⟩, h.visits, h.writes, fun m' hm' => ?_, h.applies⟩
  rcases hs.afterAppend hm' with h' | h'
  · exact h.msgs m' h'
  · exact h'

/-- Handing out a Ready: what it contains continues what was handed out before. -/
theorem Cursors.ready {l l' : RaftLog}
    {ents : List Entry} (hi : LogInv A l queue done) (hc : Cursors A l last)
    (hents : l.nextCommittedEnts false = .ok ents)
    (hl : RawNode.acceptApplying l.acceptUnstable ents = .ok l') :
    Handed.Visits last (l.nextUnstableSnapshot.toList.map .snapshot ++ ents.map .entry) ∧
      Cursors A l' (Handed.position last
        (l.nextUnstableSnapshot.toList.map .snapshot ++ ents.map .entry)) := by
  obtain ⟨hpause, hspec⟩ := (nextCommittedEnts_spec hi hc).elim hents
  obtain ⟨-, hu, hcom, happ, hing⟩ := RawNode.acceptApplying_spec hl
  have hsnap' : l'.unstable.snapshot = l.unstable.snapshot := by rw [hu]; rfl
  have hprog' : l'.unstable.snapshotInProgress = l.unstable.snapshot.isSome := by rw [hu]; rfl
  have hcom' : l'.committed = l.committed := hcom
  have happ' : l'.applied = l.applied := happ
  have hing' : l'.applying = (ents.getLast?.map (·.index)).getD l.applying := hing
  cases hlast : ents.getLast? with
  | some e =>
    -- Entries are handed out only when no snapshot is pending.
    have hne : ents ≠ [] := by
      rintro rfl
      cases hlast
    have hnone := hpause hne
    have hns : l.nextUnstableSnapshot = none := by
      unfold nextUnstableSnapshot Unstable.nextSnapshot
      rw [hnone, ite_self]
    obtain ⟨heq, hbase⟩ := hc.settled hnone
    have hget : ents[ents.length - 1]? = some e := by rw [← getLast?_eq_getElem?, hlast]
    obtain ⟨hidx, hle, -, -⟩ := hspec _ _ hget
    rw [hlast] at hing'
    have hlt : l.applying < e.index := by omega
    rw [hns]
    refine ⟨Handed.visits_entries fun n e' he' => ?_, ?_⟩
    · rw [← heq]
      exact (hspec n e' he').1
    · show Cursors A l' (Handed.position last (ents.map .entry))
      rw [Handed.position_entries, hlast]
      refine .of_none (hsnap'.trans hnone) ?_ hing' ?_ (hbase.trans (heq ▸ hlt.le))
      · rw [happ', hing']
        exact hc.applied_le.trans hlt.le
      · rw [hcom']
        exact hle
  | none =>
    obtain rfl := getLast?_eq_none_iff.mp hlast
    have hing'' : l'.applying = l.applying := hing'
    have hpending : ∀ {i : Nat}, ∀ s ∈ l'.unstable.snapshot,
        l'.unstable.snapshotInProgress = false → i < s.metadata.index := by
      intro i s hs hp
      rw [hprog', ← hsnap', hs] at hp
      cases hp
    cases hns : l.nextUnstableSnapshot with
    | none =>
      refine ⟨trivial, ?_⟩
      show Cursors A l' last
      exact {
        applied_le := by rw [happ', hing'']; exact hc.applied_le
        applying_le := by rw [hing'']; exact hc.applying_le
        last_le := by rw [hcom']; exact hc.last_le
        settled := by
          rw [hsnap', hing'']
          exact hc.settled
        inProgress := by
          intro s hs _
          rw [hsnap'] at hs
          refine hc.inProgress s hs ?_
          by_contra hp
          have : l.nextUnstableSnapshot = some s := by
            unfold nextUnstableSnapshot Unstable.nextSnapshot
            rw [if_neg hp]
            exact hs
          rw [hns] at this
          cases this
        pending := hpending }
    | some s =>
      have hpend : l.unstable.snapshotInProgress = false ∧ l.unstable.snapshot = some s := by
        unfold nextUnstableSnapshot Unstable.nextSnapshot at hns
        split_ifs at hns with hp
        exact ⟨by simpa using hp, hns⟩
      have hlt := hc.pending s hpend.2 hpend.1
      refine ⟨⟨hlt, trivial⟩, ?_⟩
      show Cursors A l' s.metadata.index
      have hbase : s.metadata.index = A.prev.index :=
        congrArg EntryID.index (hi.snapshot s hpend.2).2.1
      exact {
        applied_le := by rw [happ', hing'']; exact hc.applied_le
        applying_le := by rw [hing'']; exact hc.applying_le.trans hlt.le
        last_le := by rw [hcom', hbase]; exact hi.committed_ge
        settled := by
          intro hn
          rw [hsnap', hpend.2] at hn
          cases hn
        inProgress := by
          intro s' hs' _
          rw [hsnap', hpend.2] at hs'
          cases hs'
          rfl
        pending := hpending }

/-- The write of a Ready is queued, or there was nothing to write. -/
theorem logInv_ready {rn : RawNode} {l' : RaftLog}
    {ents : List Entry} (hi : LogInv A rn.raft.raftLog queue done)
    (hl : RawNode.acceptApplying rn.raft.raftLog.acceptUnstable ents = .ok l') :
    LogInv A l' (queue ++ if rn.needStorageAppendMsg then [rn.raft.raftLog.nextWrite] else [])
      done := by
  obtain ⟨hst, hu, hcom, happ, -⟩ := RawNode.acceptApplying_spec hl
  have haccept : LogInv A rn.raft.raftLog.acceptUnstable
      (queue ++ if rn.needStorageAppendMsg then [rn.raft.raftLog.nextWrite] else []) done := by
    cases hneed : rn.needStorageAppendMsg with
    | true => exact hi.ready
    | false =>
      simp only [RawNode.needStorageAppendMsg, Bool.or_eq_false_iff, Bool.not_eq_false',
        List.isEmpty_iff] at hneed
      rw [hi.idle hneed.1.1.1
        (Option.isSome_eq_false_iff.mp hneed.1.2 |> Option.isNone_iff_eq_none.mp)]
      rw [if_neg Bool.false_ne_true, List.append_nil]
      exact hi
  exact haccept.congr hst hu hcom (happ ▸ haccept.applied_le)

theorem Inv.ready {rd : Ready} {node : RawNode} (h : s.Inv start)
    (hr : s.node.ready = .ok (rd, node)) :
    Inv start { s with
      node
      queue := s.queue ++ rd.append.toList
      applies := s.applies ++ rd.apply.toList
      handed := s.handed ++ rd.handed } := by
  obtain ⟨A, hi, hc⟩ := h.log
  obtain ⟨l, hents, hl, hnode, hsnap, -, -, -, happend, happly⟩ := RawNode.ready_eq_ok hr
  obtain ⟨hvisits, hcur⟩ := hc.ready hi hents hl
  have hlog := logInv_ready hi hl
  have hhanded : rd.handed = s.log.nextUnstableSnapshot.toList.map .snapshot ++
      rd.committedEntries.map .entry := by rw [Ready.handed, hsnap]
  rw [← hhanded] at hvisits hcur
  rw [← Handed.position_append] at hcur
  have hmono : Handed.position start s.handed ≤ Handed.position start (s.handed ++ rd.handed) := by
    rw [Handed.position_append]
    exact hvisits.le_position
  constructor
  case log =>
    refine ⟨A, ?_, ?_⟩
    · show LogInv A node.raft.raftLog _ _
      rw [hnode, map_append, happend]
      cases hneed : s.node.needStorageAppendMsg with
      | true | false => rw [hneed] at hlog; exact hlog
    · show Cursors A node.raft.raftLog _
      rw [hnode]
      exact hcur
  case visits => exact Handed.visits_append h.visits hvisits
  case writes =>
    intro w hw
    rw [← append_assoc] at hw
    rcases mem_append.mp hw with hw | hw
    · obtain ⟨hacks, hidx⟩ := h.writes w hw
      exact ⟨hacks, fun t ht => (hidx t ht).trans hmono⟩
    · rw [happend] at hw
      split_ifs at hw
      · obtain rfl := mem_singleton.mp hw
        refine ⟨acks_newStorageAppendMsg h.msgs, fun t ht => ?_⟩
        -- The snapshot being written is the one handed out, or an earlier part of this Ready.
        have hns : s.log.nextUnstableSnapshot = some t := by
          have heq := congrArg LogWrite.snapshot hi.nextWrite_eq
          exact heq.symm.trans ht
        rw [Handed.position_append, hhanded, hns]
        show t.metadata.index ≤ Handed.position _ (.snapshot t :: rd.committedEntries.map .entry)
        rw [Handed.position_cons]
        rw [hhanded, hns] at hvisits
        exact hvisits.2.le_position
      · cases hw
  case msgs =>
    intro m hm
    rw [hnode] at hm
    cases hm
  case applies =>
    intro a ha
    rcases mem_append.mp ha with ha | ha
    · obtain ⟨ht, hidx⟩ := h.applies a ha
      exact ⟨ht, fun e he => (hidx e he).trans hmono⟩
    · rw [happly] at ha
      split_ifs at ha
      · cases ha
      · obtain rfl := mem_singleton.mp ha
        refine ⟨rfl, fun e he => ?_⟩
        rw [hhanded, ← append_assoc, Handed.position_append, Handed.position_entries]
        show e.index ≤ _
        have he' : rd.committedEntries.getLast? = some e := he
        rw [he']
        rfl

/-- A node that has just been started has handed out nothing. -/
theorem Inv.init {c : Settings} {storage : MemoryStorage} {env : Env} {node : RawNode}
    (hms : LogSlice.Chained storage.base storage.ents)
    (h : RawNode.new env c storage = .ok node) :
    Inv node.raft.raftLog.applied { node } := by
  obtain ⟨raft, hraft, h⟩ := bind_eq_ok.mp h
  cases h
  have hst := (newRaft_started env c storage).elim hraft
  have hi := hst.logInv hms
  have hnone := hst.frame.2
  refine ⟨⟨_, hi, ?_⟩, trivial, ?_, ?_, ?_⟩
  · exact .of_none hnone hst.applying.ge hst.applying hst.applied_le hst.applied_ge
  · intro w hw
    cases hw
  · intro m hm
    rw [hst.msgsAfterAppend] at hm
    cases hm
  · intro a ha
    cases ha

/-- What one step preserves. -/
theorem step_inv {s s' : Application} (h : s.Inv start) (hs : Step s s') : s'.Inv start := by
  obtain ⟨ht, hp⟩ := @past_of_ne (Handed.position start s.handed) (s.done.map (·.toLogWrite))
    { type := .hup } ⟨nofun, nofun⟩
  cases hs with
  | call hm hstep =>
    obtain ⟨ht, hp⟩ := past_of_ne hm
    exact h.call ((step_walks _ _ _).elim hstep).1 ht hp
  | tick htick => exact h.call ((tick_walks _ _ _).elim htick).1 ht hp
  | confChange hcc =>
    rename_i env cc r
    rcases applyConfChange_walks env { type := .hup } s.node.raft cc with herr | hok
    · rw [herr] at hcc
      cases hcc
    · obtain ⟨cfg, trk, isLearner, hwalk⟩ := hok
      exact (h.reconfig cfg trk isLearner).call (hwalk.elim hcc).1 ht hp
  | ready hr => exact h.ready hr
  | persist hq hw => exact h.persist hq hw
  | appendResp hw hm hstep =>
    rename_i env w m err r
    obtain ⟨hacks, hidx⟩ := h.writes w (mem_append_left _ hw)
    obtain ⟨hne, hack⟩ := hacks m hm
    refine h.call ((step_walks _ _ _).elim hstep).1 ?_ ?_
    · intro ht
      exact ⟨w.toLogWrite, mem_map_of_mem hw, hack ht⟩
    · refine ⟨fun ht t hsnap => hidx t ?_, fun ht => absurd ht hne⟩
      rw [← (hack ht).1]
      exact hsnap
  | applyResp ha hstep =>
    obtain ⟨htype, hidx⟩ := h.applies _ ha
    have hne : _ ≠ MessageType.storageAppendResp := htype.trans_ne nofun
    exact h.call ((step_walks _ _ _).elim hstep).1 (fun ht => absurd ht hne)
      ⟨fun ht => absurd ht hne, fun _ => hidx⟩

/-- What a whole run preserves. -/
theorem reachable_inv {c : Settings} {storage : MemoryStorage}
    (hms : LogSlice.Chained storage.base storage.ents) (h : Reachable c storage start s) :
    s.Inv start := by
  induction h with
  | init hnew hstart =>
    subst hstart
    exact Inv.init hms hnew
  | step _ hs ih => exact step_inv ih hs

end Application

open Application in
/-- In every state of every run, the cursors are in order, the application was
given entries one after another with no gap but jumps to snapshots, and whatever
a Ready hands out next is in storage, below `unstable.prev`. -/
theorem applied_exactly_once [Codec] {c : Settings} {storage : MemoryStorage} {start : Nat}
    {s : Application} (hms : LogSlice.Chained storage.base storage.ents)
    (h : Reachable c storage start s) :
    s.log.applied ≤ s.log.applying ∧ s.log.applying ≤ s.log.committed ∧
      s.log.committed ≤ s.log.lastIndex ∧ Handed.Visits start s.handed ∧
      ∀ rd node, s.node.ready = .ok (rd, node) → ∀ e ∈ rd.committedEntries,
        e.index ≤ s.log.unstable.prev.index ∧ e ∈ s.log.storage.ents := by
  have hinv := reachable_inv hms h
  obtain ⟨A, hi, hc⟩ := hinv.log
  refine ⟨hc.applied_le, hc.applying_le.trans hc.last_le, ?_, hinv.visits, ?_⟩
  · rw [hi.lastIndex_eq]
    exact hi.committed_le
  · intro rd node hr e he
    obtain ⟨l, hents, -⟩ := RawNode.ready_eq_ok hr
    obtain ⟨-, hspec⟩ := (nextCommittedEnts_spec hi hc).elim hents
    obtain ⟨n, hn⟩ := List.getElem?_of_mem he
    exact ⟨(hspec n e hn).2.2.1, (hspec n e hn).2.2.2⟩

/-- Storage of a cluster of one that has committed an entry. -/
def soloStorage : MemoryStorage where
  hardState := { term := 1, vote := 1, commit := 1 }
  snapshot := { metadata := { confState := { voters := [1] } } }
  ents := [{ term := 1, index := 1, data := [7] }]

def soloSettings : Settings where
  id := 1
  electionTick := 10
  heartbeatTick := 1
  maxSizePerMsg := 100
  maxInflightMsgs := 10

namespace Application

/-- What the run below does. -/
inductive Work
  | call (m : Message)
  | ready
  | persist
  /-- deliver a response that was released -/
  | respond (n : Nat)

def responses (s : Application) : List Message :=
  s.done.flatMap (·.responses) ++ s.applies.map (·.response)

variable [Codec]

def work (s : Application) : Work → Except Panic Application
  | .call m => do
    if m.type ≠ .storageAppendResp ∧ m.type ≠ .storageApplyResp then
      return s.withRaft (← s.node.raft.step {} m).2
    else return s
  | .ready => do
    let (rd, node) ← s.node.ready
    return { s with
      node
      queue := s.queue ++ rd.append.toList
      applies := s.applies ++ rd.apply.toList
      handed := s.handed ++ rd.handed }
  | .persist =>
    match s.queue with
    | [] => return s
    | w :: queue => do
      let ms ← w.persist s.log.storage
      return { s.withRaft { s.node.raft with raftLog := { s.log with storage := ms } } with
        queue
        done := w :: s.done }
  | .respond n =>
    match s.responses[n]? with
    | none => return s
    | some m => return s.withRaft (← s.node.raft.step {} m).2

/-- A node starts, and works. -/
def run (c : Settings) (storage : MemoryStorage) (ws : List Work) : Except Panic Application := do
  let node ← RawNode.new {} c storage
  ws.foldlM work { node }

variable {c : Settings} {storage : MemoryStorage} {start : Nat} {s : Application}

theorem Reachable.work (h : Reachable c storage start s) (w : Work) :
    Returns (s.work w) (Reachable c storage start) := by
  cases w with
  | call m =>
    exact Sat.ite (fun hm => Returns.seq fun _ hr => h.step (.call hm hr)) fun _ => h
  | ready => exact Returns.seq fun _ hr => h.step (.ready hr)
  | persist =>
    dsimp only [Application.work]
    split
    · exact h
    · rename_i hq
      exact Returns.seq fun _ hms => h.step (.persist hq hms)
  | respond n =>
    dsimp only [Application.work]
    split
    · exact h
    · rename_i hm
      rcases mem_append.mp (mem_of_getElem? hm) with hm | hm
      · obtain ⟨w, hw, hm⟩ := mem_flatMap.mp hm
        exact Returns.seq fun _ hr => h.step (.appendResp hw hm hr)
      · obtain ⟨a, ha, rfl⟩ := mem_map.mp hm
        exact Returns.seq fun _ hr => h.step (.applyResp ha hr)

theorem reachable_run (ws : List Work) :
    Returns (run c storage ws) fun s => ∃ start, Reachable c storage start s :=
  Returns.seq fun node hnode =>
    (Sat.foldlM (I := Reachable c storage node.raft.raftLog.applied)
      (fun _ w _ hs => hs.work w) (.init hnode rfl)).imp fun _ hs => ⟨_, hs⟩

end Application

/-- A leader takes over while the entry is being applied, and sends a snapshot. That the entry
is applied is reported late, after the snapshot was written, and again after an entry behind
the snapshot is handed out. -/
def soloWork : List Application.Work :=
  let snapshot : Snapshot :=
    { metadata := { confState := { voters := [1] }, index := 5, term := 2 } }
  [.ready, .call { type := .snap, src := 2, dst := 1, term := 2, snapshot := some snapshot },
    .ready, .persist, .respond 1, .respond 2,
    .call { type := .app, src := 2, dst := 1, term := 2, logTerm := 2, index := 5, commit := 6,
            entries := [{ term := 2, index := 6, data := [8] }] },
    .ready, .persist, .respond 1, .ready, .respond 4]

/-- What is committed is handed out after a restart, and the snapshot in its place. -/
theorem applied_exactly_once_restart :
    ∃ start s, @Application.Reachable wireCodec soloSettings soloStorage start s ∧
      s.handed.map (·.index) = [1, 5, 6] ∧ s.log.applied = 5 ∧ Handed.Visits start s.handed := by
  let _ := wireCodec
  have hrun : ((Application.run soloSettings soloStorage soloWork).map fun s =>
      (s.handed.map (·.index), s.log.applied)) = .ok ([1, 5, 6], 5) := by decide +kernel
  obtain ⟨s, hs, h⟩ := map_eq_ok.mp hrun
  obtain ⟨start, hreach⟩ := (Application.reachable_run soloWork).elim hs
  obtain ⟨hhanded, happ⟩ := Prod.mk.inj h
  have hms : LogSlice.Chained soloStorage.base soloStorage.ents :=
    ⟨Nat.zero_le _, rfl, trivial⟩
  exact ⟨start, s, hreach, hhanded, happ, (applied_exactly_once hms hreach).2.2.2.1⟩

end Cockroach.Raft
