import Cockroach.Raft.Lifecycle

/-!
# Clusters of nodes

A member of a cluster is a `RawNode` with asynchronous storage writes, the queue
of its append thread, and everything it has sent so far. Nothing that was sent
is ever taken back, so delivering from `sent` covers loss, delay, duplication and
reordering. The responses of the local storage threads reach their own node only,
in any order and number, until it crashes.

A crash forgets everything but storage: the node is made anew by `NewRawNode`
from whatever the append thread had persisted.
-/

namespace Cockroach.Raft

open Lib List

/-- A member of a cluster. -/
structure Member where
  node : RawNode
  /-- The writes that the append thread has not processed yet. -/
  queue : List StorageAppend := []
  /-- The responses of the local threads. -/
  acks : List Message := []
  /-- The messages that have left the member. -/
  sent : List Message := []

namespace Member

abbrev raft (mb : Member) : RaftNode := mb.node.raft

abbrev storage (mb : Member) : MemoryStorage := mb.raft.raftLog.storage

/-- A call into the node has returned `r`. -/
abbrev withRaft (mb : Member) (r : RaftNode) : Member :=
  { mb with node := { mb.node with raft := r } }

/-- The responses that never leave the member. -/
def isLocalAck (m : Message) : Bool := m.type == .storageAppendResp

/-- What a member does on its own or with a message. -/
inductive Act
  | step (env : Env) (m : Message)
  | tick (env : Env)
  | ready
  /-- The append thread processes its next write and releases the responses. -/
  | persist
  /-- A crash, and the start that follows. -/
  | restart (env : Env) (c : Settings)

/-- The append thread has processed `w`. -/
abbrev written (mb : Member) (w : StorageAppend) (queue : List StorageAppend)
    (ms : MemoryStorage) : Member :=
  { mb.withRaft { mb.raft with raftLog := { mb.raft.raftLog with storage := ms } } with
    queue
    acks := mb.acks ++ w.responses.filter isLocalAck
    sent := mb.sent ++ w.responses.filter (!isLocalAck ·) }

section Acts

variable [Codec]

def act (mb : Member) : Act → Except Panic Member
  | .step env m => do
      let (_, r) ← mb.raft.step env m
      return mb.withRaft r
  | .tick env => do
      let r ← mb.raft.tick env
      return mb.withRaft r
  | .ready => do
      let (rd, node) ← mb.node.ready
      return { mb with
        node
        queue := mb.queue ++ rd.append.toList
        acks := mb.acks ++ (rd.apply.map (·.response)).toList
        sent := rd.messages ++ mb.sent }
  | .persist =>
    match mb.queue with
    | [] => return mb
    | w :: queue => do
        let ms ← w.persist mb.storage
        return mb.written w queue ms
  | .restart env c => do
      let node ← RawNode.new env c mb.storage
      return { node, sent := mb.sent }

/-- `mb'` is `mb` after a Ready that left the log `l`. -/
structure Readied (mb mb' : Member) (l : RaftLog) : Prop where
  raft : mb'.raft = { mb.raft with msgs := [], msgsAfterAppend := [], raftLog := l }
  log : ∃ ents, mb.raft.raftLog.nextCommittedEnts false = .ok ents ∧
    RawNode.acceptApplying mb.raft.raftLog.acceptUnstable ents = .ok l
  sent : mb'.sent = mb.raft.msgs ++ mb.sent
  queue : mb'.queue = mb.queue ++
    if mb.node.needStorageAppendMsg then [mb.node.newStorageAppendMsg] else []
  acks : ∀ m ∈ mb'.acks, m ∈ mb.acks ∨ m.type = .storageApplyResp
  saved : mb'.node.prevHardSt =
    if isEmptyHardState mb.node.nextHardState then mb.node.prevHardSt else mb.node.nextHardState

theorem readied {mb : Member} {rd : Ready} {node : RawNode} (h : mb.node.ready = .ok (rd, node)) :
    ∃ l, mb.Readied { mb with
      node
      queue := mb.queue ++ rd.append.toList
      acks := mb.acks ++ (rd.apply.map (·.response)).toList
      sent := rd.messages ++ mb.sent } l := by
  obtain ⟨l, hents, hl, hnode, -, hmsgs, -, hprev, happend, happly⟩ := RawNode.ready_eq_ok h
  refine ⟨l, hnode, ⟨_, hents, hl⟩, by rw [hmsgs], ?_, ?_, hprev⟩
  · rw [happend]
    split_ifs <;> rfl
  · intro m hm
    rcases mem_append.mp hm with hm | hm
    · exact .inl hm
    · rw [happly] at hm
      split_ifs at hm
      · cases hm
      · rw [mem_singleton.mp hm]
        exact .inr rfl

/-- A Ready leaves storage and a pending snapshot alone. -/
theorem Readied.frame {mb mb' : Member} {l : RaftLog} (h : mb.Readied mb' l) :
    l.storage = mb.storage ∧ l.unstable.snapshot = mb.raft.raftLog.unstable.snapshot := by
  obtain ⟨ents, -, hl⟩ := h.log
  obtain ⟨hst, hun, -⟩ := RawNode.acceptApplying_spec hl
  refine ⟨hst, ?_⟩
  rw [hun]
  rfl

end Acts

/-- The responses of the write of a Ready. -/
theorem mem_newStorageAppendMsg {rn : RawNode} {m : Message}
    (hm : m ∈ rn.newStorageAppendMsg.responses) :
    m ∈ rn.raft.msgsAfterAppend ∨ m.type = .storageAppendResp := by
  rcases mem_append.mp hm with hm | hm
  · exact .inl hm
  · split_ifs at hm
    · rw [mem_singleton.mp hm]
      exact .inr rfl
    · cases hm

end Member

/-- The messages with which the application drives its own node: `Campaign`,
`Propose`, `TransferLeader`, `ForgetLeader`, `ReportUnreachable` and
`ReportSnapshot`. None of them has a term. -/
def IsCall (m : Message) : Prop :=
  m.term = 0 ∧ (m.type = .hup ∨ m.type = .prop ∨ m.type = .transferLeader ∨
    m.type = .forgetLeader ∨ m.type = .unreachable ∨ m.type = .snapStatus)

instance (m : Message) : Decidable (IsCall m) := inferInstanceAs (Decidable (_ ∧ _))

/-- A cluster; only the members it has matter. -/
abbrev Network := PeerID → Member

namespace Network

variable (ids : Finset PeerID)

/-- Member `i` can hear `m`: a response of its own threads, a call of its application,
or what a member has sent to it. -/
def Hears (n : Network) (i : PeerID) (m : Message) : Prop :=
  m ∈ (n i).acks ∨ IsCall m ∨ ∃ j ∈ ids, m ∈ (n j).sent ∧ m.dst = i

/-- Member `i` may do `a`. -/
def Legal (n : Network) (i : PeerID) : Member.Act → Prop
  | .step _ m => n.Hears ids i m
  | .restart _ c => c.id = i
  | _ => True

instance (n : Network) (i : PeerID) (a : Member.Act) : Decidable (n.Legal ids i a) := by
  cases a <;> unfold Legal
  case step => unfold Hears; infer_instance
  all_goals infer_instance

section Runs

variable [Codec]

/-- One step of a cluster. -/
inductive Step : Network → Network → Prop
  | act {n : Network} {i : PeerID} {a : Member.Act} {mb : Member} (hi : i ∈ ids)
      (hl : n.Legal ids i a) (ha : (n i).act a = .ok mb) : Step n (Function.update n i mb)

/-- A run of any length. -/
abbrev Run : Network → Network → Prop := Relation.ReflTransGen (Step ids)

/-- All members have just been started over the storage `start` gives them. -/
def Init (start : PeerID → MemoryStorage) (n : Network) : Prop :=
  ∀ i ∈ ids, ∃ env c node, c.id = i ∧ RawNode.new env c (start i) = .ok node ∧ n i = { node }

section Perform

variable (C : RaftNode → Member.Act → Prop) [∀ r a, Decidable (C r a)]

/-- The state after the given actions, if they are all legal, all meet `C` and none
panics. -/
def perform (n : Network) : List (PeerID × Member.Act) → Option Network
  | [] => some n
  | (i, a) :: as =>
    if i ∈ ids ∧ n.Legal ids i a ∧ C (n i).raft a then
      match (n i).act a with
      | .ok mb => perform (Function.update n i mb) as
      | .error _ => none
    else none

theorem run_of_perform : ∀ {as : List (PeerID × Member.Act)} {n n' : Network},
    perform ids C n as = some n' → Run ids n n'
  | [], n, n', h => by
    cases h
    exact .refl
  | (i, a) :: as, n, n', h => by
    unfold perform at h
    split_ifs at h with hl
    cases ha : (n i).act a with
    | error p =>
      rw [ha] at h
      cases h
    | ok mb =>
      rw [ha] at h
      exact .head (.act hl.1 hl.2.1 ha) (run_of_perform h)

end Perform

omit [Codec] in
theorem hears_hup (n : Network) (i : PeerID) : n.Hears ids i { type := .hup } :=
  .inr (.inl ⟨rfl, .inl rfl⟩)

/-- What a step makes of a member: a call into its node has returned, it has taken
a Ready, its append thread has processed a write, or it has restarted. -/
inductive Change (n : Network) (i : PeerID) : Member → Prop
  | call {env : Env} {inp : Message} {r : RaftNode} (hin : n.Hears ids i inp)
      (hs : RaftNode.Steps env inp (n i).raft r) : Change n i ((n i).withRaft r)
  | ready {mb : Member} {l : RaftLog} (h : (n i).Readied mb l) : Change n i mb
  | persist {w : StorageAppend} {queue : List StorageAppend} {ms : MemoryStorage}
      (hq : (n i).queue = w :: queue) (hw : w.persist (n i).storage = .ok ms) :
      Change n i ((n i).written w queue ms)
  | restart {env : Env} {c : Settings} {node : RawNode} (hc : c.id = i)
      (h : RawNode.new env c (n i).storage = .ok node) :
      Change n i { node, sent := (n i).sent }

variable {n n' : Network}

/-- Every step is a change of one member. -/
theorem Step.change (h : Step ids n n') :
    ∃ i ∈ ids, ∃ mb, Change ids n i mb ∧ n' = Function.update n i mb := by
  cases h with
  | act hi hl ha =>
    rename_i i a mb
    refine ⟨i, hi, mb, ?_, rfl⟩
    cases a with
    | step env m =>
      obtain ⟨r, hr, ha⟩ := bind_eq_ok.mp ha
      cases ha
      exact .call hl ((RaftNode.step_walks _ _ _).elim hr).1
    | tick env =>
      obtain ⟨r, hr, ha⟩ := bind_eq_ok.mp ha
      cases ha
      exact .call (hears_hup ids n i) ((RaftNode.tick_walks _ _ _).elim hr).1
    | ready =>
      obtain ⟨rd, hr, ha⟩ := bind_eq_ok.mp ha
      cases ha
      obtain ⟨l, h⟩ := Member.readied hr
      exact .ready h
    | persist =>
      unfold Member.act at ha
      cases hq : (n i).queue with
      | nil =>
        rw [hq] at ha
        cases ha
        have hrefl : RaftNode.Steps {} { type := .hup } (n i).raft (n i).raft := .refl
        exact .call (hears_hup ids n i) hrefl
      | cons w queue =>
        rw [hq] at ha
        obtain ⟨ms, hms, ha⟩ := bind_eq_ok.mp ha
        cases ha
        exact .persist hq hms
    | restart env c =>
      obtain ⟨node, hnode, ha⟩ := bind_eq_ok.mp ha
      cases ha
      exact .restart hl hnode

/-- Nothing that was sent is taken back. -/
theorem act_sent {mb mb' : Member} {a : Member.Act} (h : mb.act a = .ok mb') :
    mb.sent ⊆ mb'.sent := by
  cases a with
  | step | tick =>
    obtain ⟨r, -, h⟩ := bind_eq_ok.mp h
    cases h
    exact Subset.refl _
  | ready =>
    obtain ⟨r, -, h⟩ := bind_eq_ok.mp h
    cases h
    exact subset_append_right _ _
  | persist =>
    unfold Member.act at h
    cases hq : mb.queue with
    | nil =>
      rw [hq] at h
      cases h
      exact Subset.refl _
    | cons w queue =>
      rw [hq] at h
      obtain ⟨ms, -, h⟩ := bind_eq_ok.mp h
      cases h
      exact subset_append_left _ _
  | restart env c =>
    obtain ⟨node, -, h⟩ := bind_eq_ok.mp h
    cases h
    exact Subset.refl _

theorem Step.sent (h : Step ids n n') (j : PeerID) : (n j).sent ⊆ (n' j).sent := by
  cases h with
  | act hi hl ha =>
    rename_i i a mb
    by_cases hj : j = i
    · subst hj
      rw [Function.update_self]
      exact act_sent ha
    · rw [Function.update_of_ne hj]
      exact Subset.refl _

theorem Run.sent (h : Run ids n n') (j : PeerID) : (n j).sent ⊆ (n' j).sent := by
  induction h with
  | refl => exact Subset.refl _
  | tail _ hs ih => exact Subset.trans ih (hs.sent ids j)

end Runs

/-! ## A cluster of three -/

/-- Empty storage of a cluster of three voters. -/
def trioStorage : MemoryStorage where
  snapshot := { metadata := { confState := { voters := [1, 2, 3] } } }

def trioSettings (i : PeerID) : Settings where
  id := i
  electionTick := 10
  heartbeatTick := 1
  maxSizePerMsg := 100
  maxInflightMsgs := 10

/-- Three members that start from empty storage. -/
def trio : Network := fun i =>
  match @RawNode.new wireCodec {} (trioSettings i) trioStorage with
  | .ok node => { node }
  | .error _ => { node := { raft := { id := i } } }

theorem trio_init : @Init {1, 2, 3} wireCodec (fun _ => trioStorage) trio := by
  intro i hi
  have hok : (@RawNode.new wireCodec {} (trioSettings i) trioStorage).toBool = true := by
    simp only [Finset.mem_insert, Finset.mem_singleton] at hi
    rcases hi with rfl | rfl | rfl <;> decide +kernel
  cases h : @RawNode.new wireCodec {} (trioSettings i) trioStorage with
  | error p =>
    rw [h] at hok
    cases hok
  | ok node =>
    refine ⟨{}, trioSettings i, node, rfl, h, ?_⟩
    unfold trio
    rw [h]

end Network

end Cockroach.Raft
