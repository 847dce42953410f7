import Cockroach.KvCoord.Committer
import Cockroach.KvCoord.Footprint

/-!
# Commits with all writes proven

A run of a coordinator with the writes that were acknowledged by asynchronous consensus in its
epoch, locking reads included, and which of them a `QueryIntent` has found since. A batch goes
through the pipeliner and the committer.

No request that overlaps a write that is not proven is sent without a `QueryIntent` for the
write before it (`Chained`), so that a commit has one for each of them. If it is reported, each
one has found its write, and if the transaction was only staged at or below the timestamp that
it was staged at (`commit_proven`).
-/

namespace Cockroach.KvCoord

open Kvpb Roachpb Storage Hlc TxnCoordSender TxnCommitter TxnPipeliner
open List hiding getElem?_eq_some_iff

/-! ## Chaining -/

namespace TxnPipeliner

variable {ignored : List IgnoredSeqNumRange} {ws : List SequencedWrite} {l : List Request}
  {tp tp' : TxnPipeliner}

/-- Each request comes after the `QueryIntent`s of the writes that it is to be chained onto. -/
def Chained (ignored : List IgnoredSeqNumRange) (ws : List SequencedWrite) (l : List Request) :
    Prop :=
  ∀ (i : Nat) req, l[i]? = some req → (∀ h args, req ≠ .queryIntent h args) →
    ∀ w ∈ ws, chainsOnto req w = true → ∃ j, j < i ∧ l[j]? = some (queryIntentFor ignored w)

/-- Requests may be added once the writes that they are to be chained onto are queried. -/
theorem Chained.append (h : Chained ignored ws l) {more : List Request}
    (hmore : ∀ req ∈ more, (∀ h args, req ≠ .queryIntent h args) →
      ∀ w ∈ ws, chainsOnto req w = true → queryIntentFor ignored w ∈ l) :
    Chained ignored ws (l ++ more) := by
  intro i req hi hne w hw hch
  have hq : ∃ j, j < i ∧ j < l.length ∧ l[j]? = some (queryIntentFor ignored w) := by
    rcases lt_or_ge i l.length with hlt | hge
    · rw [getElem?_append_left hlt] at hi
      obtain ⟨j, hj, hq⟩ := h i req hi hne w hw hch
      exact ⟨j, hj, hj.trans hlt, hq⟩
    · rw [getElem?_append_right hge] at hi
      have hmem := hmore req (mem_of_getElem? hi) hne w hw hch
      obtain ⟨j, hj⟩ := mem_iff_getElem?.mp hmem
      have hjlt := (List.getElem?_eq_some_iff.mp hj).1
      exact ⟨j, hjlt.trans_le hge, hjlt, hj⟩
  obtain ⟨j, hj, hlt, hq⟩ := hq
  exact ⟨j, hj, (getElem?_append_left hlt).trans hq⟩

/-- What holds after each round of the loop of `chainToInFlightWrites`. -/
structure ChainInv (ignored : List IgnoredSeqNumRange) (n : Nat) (ws : List SequencedWrite)
    (c : Chaining) : Prop where
  writes : c.ifWrites.map InFlightWrite.write = ws
  count : c.chainCount = c.ifWrites.countP fun x => decide (x.chainIndex = n)
  queried : ∀ x ∈ c.ifWrites, x.chainIndex = n → queryIntentFor ignored x.write ∈ c.requests
  chained : Chained ignored ws c.requests

/-- The writes that a request marks are counted once. -/
theorem countP_mark (req : Request) (n : Nat) (s : InFlightWriteSet) :
    (s.map fun x => if chainsOnto req x.write then { x with chainIndex := n } else x).countP
        (fun x => decide (x.chainIndex = n)) =
      s.countP (fun x => decide (x.chainIndex = n)) +
        (s.filter fun x => chainsOnto req x.write && decide (x.chainIndex ≠ n)).length := by
  induction s with
  | nil => rfl
  | cons x s ih =>
    rw [map_cons, countP_cons, countP_cons, filter_cons, ih]
    by_cases hch : chainsOnto req x.write = true
    · by_cases hn : x.chainIndex = n
      · simp [hch, hn]
        omega
      · simp [hch, hn]
        omega
    · simp only [Bool.not_eq_true] at hch
      by_cases hn : x.chainIndex = n
      · simp [hch, hn]
        omega
      · simp [hch, hn]

theorem ChainInv.step {n : Nat} {c : Chaining} (h : ChainInv ignored n ws c) (req : Request) :
    ChainInv ignored n ws (chainRequest ignored n c req) := by
  have hmem : ∀ w ∈ ws, ∃ x ∈ c.ifWrites, x.write = w := by
    intro w hw
    rw [← h.writes] at hw
    exact mem_map.mp hw
  refine ⟨(chainRequest_writes ignored n c req).trans h.writes, ?_, ?_, ?_⟩
  all_goals unfold chainRequest
  all_goals split_ifs with hlt
  · show c.chainCount + _ = _
    rw [h.count]
    exact (countP_mark req n c.ifWrites).symm
  · exact h.count
  · intro y hy hn
    obtain ⟨x, hx, rfl⟩ := mem_map.mp hy
    refine mem_append_left _ ?_
    by_cases hxn : x.chainIndex = n
    · refine mem_append_left _ ?_
      split_ifs
      · exact h.queried x hx hxn
      · exact h.queried x hx hxn
    · split_ifs at hn ⊢ with hch
      · refine mem_append_right _ (mem_map.mpr ⟨x, mem_filter.mpr ⟨hx, ?_⟩, rfl⟩)
        rw [hch, Bool.true_and]
        exact decide_eq_true hxn
      · exact absurd hn hxn
  · exact fun x hx hn => mem_append_left _ (h.queried x hx hn)
  · refine (h.chained.append ?_).append ?_
    · intro q hq hne
      obtain ⟨x, -, rfl⟩ := mem_map.mp hq
      exact absurd rfl (hne _ _)
    · intro q hq _ w hw hch
      obtain rfl := mem_singleton.mp hq
      obtain ⟨x, hx, rfl⟩ := hmem w hw
      by_cases hxn : x.chainIndex = n
      · exact mem_append_left _ (h.queried x hx hxn)
      · refine mem_append_right _ (mem_map.mpr ⟨x, mem_filter.mpr ⟨hx, ?_⟩, rfl⟩)
        rw [hch, Bool.true_and]
        exact decide_eq_true hxn
  · -- all writes have been chained onto
    have hall : c.ifWrites.countP (fun x => decide (x.chainIndex = n)) = c.ifWrites.length :=
      le_antisymm countP_le_length (h.count ▸ not_lt.mp hlt)
    refine h.chained.append fun _ _ _ w hw _ => ?_
    obtain ⟨x, hx, rfl⟩ := hmem w hw
    exact h.queried x hx (of_decide_eq_true (countP_eq_length.mp hall x hx))

theorem ChainInv.foldl {n : Nat} {c : Chaining} (h : ChainInv ignored n ws c)
    (requests : List Request) :
    ChainInv ignored n ws (requests.foldl (chainRequest ignored n) c) := by
  induction requests generalizing c with
  | nil => exact h
  | cons req requests ih => exact ih (h.step req)

theorem Fresh.chained_chainToInFlightWrites (hf : tp.Fresh) (ba : BatchRequest) :
    Chained ignored (tp.ifWrites.map InFlightWrite.write)
      (tp.chainToInFlightWrites ignored ba).2.requests := by
  unfold chainToInFlightWrites
  split_ifs with hnil
  · rw [hnil]
    intro i req _ _ w hw
    exact absurd hw not_mem_nil
  · have hnew : ∀ x ∈ tp.ifWrites, x.chainIndex ≠ tp.ifWritesChainIndex + 1 := by
      intro x hx heq
      have := hf x hx
      omega
    have hstart : ChainInv ignored (tp.ifWritesChainIndex + 1)
        (tp.ifWrites.map InFlightWrite.write) { ifWrites := tp.ifWrites } := by
      refine ⟨rfl, ?_, fun x hx hn => absurd hn (hnew x hx), fun i req hi => ?_⟩
      · refine (countP_eq_zero.mpr fun x hx => ?_).symm
        rw [decide_eq_true_iff]
        exact hnew x hx
      · cases hi
    exact (hstart.foldl ba.requests).chained

/-- What the pipeliner sends is chained onto all in-flight writes. -/
theorem Fresh.chained_prepare {st : Settings} {ba ba' : BatchRequest} (hf : tp.Fresh)
    (h : tp.prepare st ignored ba = (tp', .ok ba')) :
    Chained ignored (tp.ifWrites.map InFlightWrite.write) ba'.requests := by
  obtain ⟨ba₁, -, hba⟩ := prepare_eq_ok h
  have hf' : (tp.checkBudget st ba₁).1.Fresh := by
    unfold checkBudget maybeRejectOverBudget
    split_ifs <;> exact hf
  rw [hba, ← checkBudget_ifWrites st ba₁]
  exact hf'.chained_chainToInFlightWrites _

end TxnPipeliner

/-! ## Runs -/

/-- A rollback, with when the savepoint was created. -/
structure Rollback where
  created : Nat
  ran : Nat
  deriving DecidableEq, Repr

/-- Some rollback went back to before the time. -/
def RolledBack (rollbacks : List Rollback) (time : Nat) : Prop :=
  ∃ rb ∈ rollbacks, rb.created < time ∧ time < rb.ran

theorem rolledBack_append {rollbacks : List Rollback} {created ran time : Nat} :
    RolledBack (rollbacks ++ [⟨created, ran⟩]) time ↔
      RolledBack rollbacks time ∨ created < time ∧ time < ran := by
  unfold RolledBack
  simp only [mem_append, mem_singleton, or_and_right, exists_or, exists_eq_left]

/-- A write that was acknowledged by asynchronous consensus, when, and whether a
`QueryIntent` has found it since. -/
structure Ack where
  write : SequencedWrite
  time : Nat
  found : Bool := false
  deriving DecidableEq, Repr

/-- An acknowledged write once a `QueryIntent` has found it. -/
def Ack.prove (h : RequestHeader) (args : QueryIntent) (a : Ack) : Ack :=
  if a.write = ⟨h.key, args.txnSequence, args.strength⟩ then { a with found := true } else a

/-- The acknowledged writes after the response to one request. -/
def ackResponse (async : Bool) (time : Nat) (acks : List Ack) (r : Request × Response) : List Ack :=
  match r.1 with
  | .queryIntent h args =>
    if r.2.foundIntent || r.2.foundUnpushedIntent then acks.map (Ack.prove h args) else acks
  | req =>
    if async && req.isLocking then
      acks ++ (lockSpanIterate req (some r.2)).map fun sp =>
        ⟨⟨sp.key, req.header.sequence, req.lockStrength⟩, time, false⟩
    else acks

/-- The acknowledged writes after a batch. -/
def ackBatch (time : Nat) (ba : BatchRequest) (res : Result) (acks : List Ack) : List Ack :=
  match res with
  | .error _ => acks
  | .ok br =>
    if br.status.isFinalized then acks
    else (ba.requests.zip br.responses).foldl (ackResponse ba.asyncConsensus time) acks

/-- A coordinator and its committer with the record of the epoch. -/
structure CommitRun where
  tc : TxnCoordSender
  committer : TxnCommitter := {}
  time : Nat := 0
  /-- the savepoints that can be used, with when they were created, the oldest first -/
  savepoints : List (Savepoint × Nat) := []
  acks : List Ack := []
  rollbacks : List Rollback := []

namespace CommitRun

/-- The record after a step that is no savepoint operation: kept, or started anew in a new
epoch. -/
def next (r : CommitRun) (tc : TxnCoordSender) (committer : TxnCommitter) (acks : List Ack) :
    CommitRun :=
  if tc.epoch = r.tc.epoch then { r with tc, committer, acks, time := r.time + 1 }
  else
    { tc, committer, time := r.time + 1, savepoints := r.savepoints.filter fun s => s.1.initial,
      acks := [], rollbacks := [] }

/-- One step of a run. -/
inductive Step (r : CommitRun) : CommitRun → Prop
  | createSavepoint {sp : Savepoint} {tc : TxnCoordSender}
      (h : r.tc.createSavepoint = .ok (sp, tc)) :
      Step r { r with
        tc
        savepoints := r.savepoints ++ [(sp, r.time)]
        time := r.time + 1 }
  | rollbackToSavepoint {before after : List (Savepoint × Nat)} {sp : Savepoint} {created : Nat}
      {tc : TxnCoordSender} (hsp : r.savepoints = before ++ (sp, created) :: after)
      (h : r.tc.rollbackToSavepoint sp = .ok tc) :
      Step r { r with
        tc
        savepoints := before ++ [(sp, created)]
        rollbacks := r.rollbacks ++ [⟨created, r.time⟩]
        time := r.time + 1 }
  | unsent {st : Settings} {requests : List Request} {tc : TxnCoordSender} {s : Sent}
      (h : r.tc.send st requests = (tc, s)) (hs : ∀ ba, s ≠ .sent ba) :
      Step r (r.next tc r.committer r.acks)
  | batch {st : Settings} {requests : List Request} {tc tc' : TxnCoordSender}
      {ba : BatchRequest} {ri : RangeIterator} {header : BatchHeader}
      {first again : BatchRequest → Result} {c : TxnCommitter} {res : Result}
      (hsend : r.tc.send st requests = (tc, .sent ba))
      (hcommitter : r.committer.sendLocked st header ba first again = (c, res))
      (hsound : Sound ba res) (hreceive : tc.receive st ri ba res = .ok tc') :
      Step r (r.next tc' c (ackBatch r.time ba res r.acks))
  | step : Step r (r.next r.tc.step r.committer r.acks)
  | configureStepping (mode : Bool) :
      Step r (r.next (r.tc.configureStepping mode) r.committer r.acks)
  | clearRetryableErr : Step r (r.next r.tc.clearRetryableErr r.committer r.acks)

/-- The runs of a new transaction, in stepping mode or not. -/
inductive Reachable : CommitRun → Prop
  | start (steppingMode perStatementReadSnapshot : Bool) :
      Reachable { tc := { seqNums := { steppingMode }, perStatementReadSnapshot } }
  | step {r r' : CommitRun} (h : Reachable r) (hstep : r.Step r') : Reachable r'

/-- A write that has to be proven: not found since it was acknowledged and not rolled back. -/
def Unproven (r : CommitRun) (a : Ack) : Prop :=
  a ∈ r.acks ∧ a.found = false ∧ ¬ RolledBack r.rollbacks a.time

/-! ## What is unproven is in flight -/

/-- The acknowledged writes that are not found are in flight, unless they are rolled back. -/
def Pending (rollbacks : List Rollback) (tp : TxnPipeliner) (acks : List Ack) : Prop :=
  ∀ a ∈ acks, a.found = false → ¬ RolledBack rollbacks a.time → tp.InFlight a.write

section Pending

variable {rollbacks : List Rollback} {tp tp' : TxnPipeliner} {acks : List Ack} {async : Bool}
  {time : Nat}

theorem ackResponse_eq {req : Request} {resp : Response} (h : ∀ h args, req ≠ .queryIntent h args) :
    ackResponse async time acks (req, resp) =
      if async && req.isLocking then
        acks ++ (lockSpanIterate req (some resp)).map fun sp =>
          ⟨⟨sp.key, req.header.sequence, req.lockStrength⟩, time, false⟩
      else acks := by
  cases req with
  | queryIntent hd args => exact absurd rfl (h hd args)
  | _ => rfl

/-- The response to one request. -/
theorem pending_response {req : Request} {resp : Response} (h : Pending rollbacks tp acks)
    (ht : trackResponse async tp (req, resp) = .ok tp') :
    Pending rollbacks tp' (ackResponse async time acks (req, resp)) := by
  have hne : req.isLocking = true → ∀ h args, req ≠ .queryIntent h args := by
    rintro hl h args rfl
    cases hl
  cases trackResponse_tracks ht with
  | found hd args hreq hfound =>
    subst hreq
    unfold ackResponse
    dsimp only
    rw [if_pos hfound]
    intro a' ha' hnf hrb
    obtain ⟨a, ha, rfl⟩ := mem_map.mp ha'
    unfold Ack.prove at hnf hrb ⊢
    split_ifs at hnf hrb ⊢ with heq
    exact (exists_remove _).mpr ⟨heq, h a ha hnf hrb⟩
  | skipped hd args hreq hfound =>
    subst hreq
    unfold ackResponse
    dsimp only
    rw [if_neg (by rw [hfound]; exact Bool.false_ne_true)]
    exact h
  | unlocked hreq hl =>
    rw [ackResponse_eq hreq, hl, Bool.and_false]
    exact h
  | async hl ha hpoint =>
    subst ha
    rw [ackResponse_eq (hne hl), hl]
    intro a ha hnf hrb
    refine (exists_foldl_insert _ _).mpr ?_
    rcases mem_append.mp ha with ha | ha
    · exact .inr (h a ha hnf hrb)
    · obtain ⟨sp, hsp, rfl⟩ := mem_map.mp ha
      exact .inl ⟨sp, hsp, rfl⟩
  | sync hl ha =>
    subst ha
    rw [ackResponse_eq (hne hl)]
    exact h

theorem pending_batch {ba : BatchRequest} {res : Result} {st : Settings} {ri : RangeIterator}
    (h : Pending rollbacks tp acks) (hc : ∀ br, res = .ok br → br.status ≠ .committed)
    (ht : tp.updateLockTracking st ri ba res = .ok tp') :
    Pending rollbacks tp' (ackBatch time ba res acks) := by
  have hresponses : ∀ {rs : List (Request × Response)} {tp tp' : TxnPipeliner} {acks : List Ack},
      Pending rollbacks tp acks →
      rs.foldlM (trackResponse ba.asyncConsensus) tp = .ok tp' →
      Pending rollbacks tp' (rs.foldl (ackResponse ba.asyncConsensus time) acks) := by
    intro rs
    induction rs with
    | nil =>
      intro tp tp' acks h ht
      cases ht
      exact h
    | cons r rs ih =>
      intro tp tp' acks h ht
      rw [foldlM_cons] at ht
      obtain ⟨tp₁, h₁, ht⟩ := Lib.bind_eq_ok.mp ht
      exact ih (pending_response h h₁) ht
  obtain ⟨tp₁, h₁, rfl⟩ := Lib.map_eq_ok.mp ht
  have hpending : Pending rollbacks tp₁ (ackBatch time ba res acks) := by
    unfold ackBatch
    cases updateLockTrackingInner_updates h₁ with
    | error => exact h
    | aborted br hst =>
      dsimp only
      rw [hst]
      exact h
    | committed br hst => exact absurd hst (hc br rfl)
    | responses br hst h₁ =>
      dsimp only
      rw [hst]
      exact hresponses h h₁
  unfold condenseIfOverBudget
  dsimp only
  split_ifs <;> exact hpending

/-- An acknowledged write of a new record is an old one, perhaps found since, or one of the
batch. -/
theorem mem_ackBatch {ba : BatchRequest} {res : Result} {a : Ack}
    (h : a ∈ ackBatch time ba res acks) :
    (∃ a₀ ∈ acks, a₀.write = a.write ∧ a₀.time = a.time ∧ (a.found = false → a₀.found = false)) ∨
      a.time = time ∧ ∃ req ∈ ba.requests, a.write.sequence = req.header.sequence := by
  have hresponses : ∀ {rs : List (Request × Response)} {acks : List Ack},
      a ∈ rs.foldl (ackResponse ba.asyncConsensus time) acks →
      (∃ a₀ ∈ acks, a₀.write = a.write ∧ a₀.time = a.time ∧
        (a.found = false → a₀.found = false)) ∨
      a.time = time ∧ ∃ r ∈ rs, a.write.sequence = r.1.header.sequence := by
    intro rs
    induction rs with
    | nil => exact fun ha => .inl ⟨a, ha, rfl, rfl, id⟩
    | cons r rs ih =>
      intro acks ha
      rcases ih ha with ⟨a₁, ha₁, hw, ht, hf⟩ | ⟨ht, r', hr', hs⟩
      · obtain ⟨req, resp⟩ := r
        cases req with
        | queryIntent hd args =>
          unfold ackResponse at ha₁
          split_ifs at ha₁
          · obtain ⟨a₀, ha₀, rfl⟩ := mem_map.mp ha₁
            unfold Ack.prove at hw ht hf
            split_ifs at hw ht hf
            · exact .inl ⟨a₀, ha₀, hw, ht, fun hnf => by cases hf hnf⟩
            · exact .inl ⟨a₀, ha₀, hw, ht, hf⟩
          · exact .inl ⟨a₁, ha₁, hw, ht, hf⟩
        | _ =>
          rw [ackResponse_eq (by simp)] at ha₁
          split_ifs at ha₁
          · rcases mem_append.mp ha₁ with ha₁ | ha₁
            · exact .inl ⟨a₁, ha₁, hw, ht, hf⟩
            · obtain ⟨sp, -, rfl⟩ := mem_map.mp ha₁
              exact .inr ⟨ht.symm, _, mem_cons_self, congrArg _ hw.symm⟩
          · exact .inl ⟨a₁, ha₁, hw, ht, hf⟩
      · exact .inr ⟨ht, r', mem_cons_of_mem _ hr', hs⟩
  unfold ackBatch at h
  cases res with
  | error err => exact .inl ⟨a, h, rfl, rfl, id⟩
  | ok br =>
    dsimp only at h
    split_ifs at h
    · exact .inl ⟨a, h, rfl, rfl, id⟩
    · rcases hresponses h with hold | ⟨ht, r, hr, hs⟩
      · exact .inl hold
      · exact .inr ⟨ht, r.1, (of_mem_zip hr).1, hs⟩

end Pending

/-! ## The invariant -/

/-- A savepoint that can be used: what was acknowledged before it and is still unproven has a
lower sequence number. -/
structure Usable (r : CommitRun) (s : Savepoint × Nat) : Prop where
  created : s.2 < r.time
  initial : s.1.initial = true → s.1.seqNum = 0
  distinct : ∀ a ∈ r.acks, a.time ≠ s.2
  before : ∀ a, r.Unproven a → a.time < s.2 → a.write.sequence < s.1.seqNum

/-- What holds after every step. -/
structure Inv (r : CommitRun) : Prop where
  valid : r.tc.pipeliner.Valid
  fresh : r.tc.pipeliner.Fresh
  readSeq : r.tc.seqNums.readSeq ≤ r.tc.seqNums.writeSeq
  finalized : r.tc.status = .committed → r.tc.txnState = .finalized
  pending : r.tc.status ≠ .committed → Pending r.rollbacks r.tc.pipeliner r.acks
  acks : ∀ a ∈ r.acks, a.write.sequence ≤ r.tc.seqNums.writeSeq ∧ a.time < r.time
  usable : ∀ s ∈ r.savepoints, r.Usable s
  inactive : r.tc.active = false → ∀ a, ¬ r.Unproven a

variable {r : CommitRun}

variable {tc : TxnCoordSender} {committer : TxnCommitter} {ba : BatchRequest} {st : Settings}
  {br : BatchResponse}

section

variable (hi : r.Inv)
include hi

/-- A step within the epoch that makes no savepoint and rolls nothing back. -/
theorem Inv.go_on {acks : List Ack}
    (hseq : r.tc.seqNums.Advances tc.seqNums) (hactive : r.tc.active = true → tc.active = true)
    (hfin : tc.status = .committed → tc.txnState = .finalized) (hv : tc.pipeliner.Valid)
    (hf : tc.pipeliner.Fresh) (hp : tc.status ≠ .committed → Pending r.rollbacks tc.pipeliner acks)
    (hacks : ∀ a ∈ acks, (∃ a₀ ∈ r.acks, a₀.write = a.write ∧ a₀.time = a.time ∧
      (a.found = false → a₀.found = false)) ∨
      a.time = r.time ∧ a.write.sequence ≤ tc.seqNums.writeSeq ∧ tc.active = true) :
    Inv { r with tc, committer, acks, time := r.time + 1 } where
  valid := hv
  fresh := hf
  readSeq := hseq.readSeq hi.readSeq
  finalized := hfin
  pending := hp
  acks a ha := by
    rcases hacks a ha with ⟨a₀, ha₀, hw, ht, -⟩ | ⟨ht, hle, -⟩
    · obtain ⟨hle, hlt⟩ := hi.acks a₀ ha₀
      rw [← hw, ← ht]
      exact ⟨hle.trans hseq.writeSeq, Nat.lt_succ_of_lt hlt⟩
    · exact ⟨hle, ht ▸ Nat.lt_succ_self _⟩
  usable s hs := by
    have hu := hi.usable s hs
    refine ⟨Nat.lt_succ_of_lt hu.created, hu.initial, fun a ha => ?_, fun a ha hlt => ?_⟩
    · rcases hacks a ha with ⟨a₀, ha₀, -, ht, -⟩ | ⟨ht, -⟩
      · exact ht ▸ hu.distinct a₀ ha₀
      · exact ht ▸ hu.created.ne'
    · obtain ⟨ha, hnf, hrb⟩ := ha
      rcases hacks a ha with ⟨a₀, ha₀, hw, ht, hf₀⟩ | ⟨ht, -⟩
      · rw [← hw]
        exact hu.before a₀ ⟨ha₀, hf₀ hnf, ht ▸ hrb⟩ (ht ▸ hlt)
      · have := hu.created
        omega
  inactive hact a ha := by
    obtain ⟨ha, hnf, hrb⟩ := ha
    have hold : r.tc.active = false := by
      by_contra hne
      rw [hactive (by simpa using hne)] at hact
      cases hact
    rcases hacks a ha with ⟨a₀, ha₀, -, ht, hf₀⟩ | ⟨-, -, hact'⟩
    · exact hi.inactive hold a₀ ⟨ha₀, hf₀ hnf, ht ▸ hrb⟩
    · rw [hact'] at hact
      cases hact

theorem Inv.quiet (hq : r.tc.Quiet tc) : Inv { r with tc, committer, time := r.time + 1 } := by
  have hk := hq.keeps hi.valid.footprint
  exact hi.go_on hq.seqNums hq.active (hq.committed hi.finalized) (hk.validAll hi.valid)
    (hk.fresh hi.fresh)
    (fun hs a ha hnf hrb => (hk.inFlight _).mpr (hi.pending (hq.status hs) a ha hnf hrb))
    fun a ha => .inl ⟨a, ha, rfl, rfl, id⟩

/-- A new epoch. -/
theorem Inv.newEpoch {tp : TxnPipeliner}
    {acks : List Ack} (hs : r.tc.status ≠ .committed) (hv : tp.Valid)
    (hf : tp.Fresh) (hn : r.tc.NewEpoch tp tc) : (r.next tc committer acks).Inv := by
  unfold next
  rw [if_neg (by rw [hn.epoch]; omega)]
  refine ⟨hn.pipeliner ▸ hv.epochBumpedLocked.1, hn.pipeliner ▸ hf.epochBumpedLocked, ?_,
    fun hc => absurd (hn.status ▸ hc) hs, fun _ a ha => absurd ha not_mem_nil,
    fun a ha => absurd ha not_mem_nil, fun s hmem => ?_,
    fun _ a ha => absurd ha.1 not_mem_nil⟩
  · show tc.seqNums.readSeq ≤ tc.seqNums.writeSeq
    rw [hn.seqNums.1, hn.seqNums.2]
  · obtain ⟨hmem, -⟩ := mem_filter.mp hmem
    have hu := hi.usable s hmem
    exact ⟨Nat.lt_succ_of_lt hu.created, hu.initial, fun a ha => absurd ha not_mem_nil,
      fun a ha => absurd ha.1 not_mem_nil⟩

theorem Inv.next_quiet (hq : r.tc.Quiet tc) : (r.next tc r.committer r.acks).Inv := by
  unfold next
  rw [if_pos hq.epoch]
  exact hi.quiet hq

theorem Inv.batch {requests : List Request} {tc tc' : TxnCoordSender} {ri : RangeIterator}
    {res : Result} {c : TxnCommitter}
    (hsend : r.tc.send st requests = (tc, .sent ba)) (hsound : Sound ba res)
    (hreceive : tc.receive st ri ba res = .ok tc') :
    (r.next tc' c (ackBatch r.time ba res r.acks)).Inv := by
  obtain ⟨tp, hq, hne, -, htp, hvtp, hact, hcases⟩ :=
    send_receive hi.valid hsend hsound hreceive
  have hk := hq.keeps hi.valid.footprint
  have hftp := (hk.fresh hi.fresh).updateLockTracking htp
  rcases hcases with ⟨hq', hfin, hok⟩ | ⟨hn, -⟩
  · have hk' := hq'.keeps hvtp.footprint
    unfold next
    rw [if_pos (hq'.epoch.trans hq.epoch)]
    refine hi.go_on (hq.seqNums.trans hq'.seqNums) (fun _ => hact) hfin (hk'.validAll hvtp)
      (hk'.fresh hftp) (fun hs a ha hnf hrb => (hk'.inFlight _).mpr ?_) fun a ha => ?_
    · have hold : Pending r.rollbacks tc.pipeliner r.acks := fun a ha hnf hrb =>
        (hk.inFlight _).mpr (hi.pending hne a ha hnf hrb)
      exact pending_batch hold (hok hs) htp a ha hnf hrb
    · rcases mem_ackBatch ha with hold | ⟨ht, req, hreq, hs⟩
      · exact .inl hold
      · have hle := send_sequence_le hsend hi.readSeq req hreq
        exact .inr ⟨ht, hs ▸ hle.trans hq'.seqNums.writeSeq, hact⟩
  · exact hi.newEpoch hne hvtp hftp hn

/-- What is in flight when a savepoint is created gets a lower number than the savepoint. -/
theorem Inv.createSavepoint {sp : Savepoint} (h : r.tc.createSavepoint = .ok (sp, tc)) :
    Inv { r with tc, savepoints := r.savepoints ++ [(sp, r.time)], time := r.time + 1 } := by
  obtain ⟨hfin, hq, hinit, hcases⟩ := createSavepoint_eq_ok h
  have hne : r.tc.status ≠ .committed := fun hc => hfin (hi.finalized hc)
  have hlt : ∀ a, r.Unproven a → a.write.sequence < sp.seqNum := by
    intro a ha
    rcases hcases with ⟨hact, -⟩ | ⟨-, hseq, -⟩
    · exact absurd ha (hi.inactive hact a)
    · have hl : r.tc.pipeliner.hasAcquiredLocks = true :=
        hasAcquiredLocks_iff.mpr (.inl ⟨a.write, hi.pending hne a ha.1 ha.2.1 ha.2.2⟩)
      have hle := (hi.acks a ha.1).1
      rw [hseq, if_pos hl]
      omega
  have hi' := @Inv.quiet r tc r.committer hi hq
  refine { hi' with usable := fun s hs => ?_ }
  rcases mem_append.mp hs with hs | hs
  · exact { hi'.usable s hs with }
  · rw [mem_singleton.mp hs]
    exact ⟨Nat.lt_succ_self _, hinit, fun a ha => (hi.acks a ha).2.ne, fun a ha _ => hlt a ha⟩

theorem Inv.rollbackToSavepoint {before after : List (Savepoint × Nat)} {sp : Savepoint}
    {created : Nat} (hsp : r.savepoints = before ++ (sp, created) :: after)
    (h : r.tc.rollbackToSavepoint sp = .ok tc) :
    Inv { r with
      tc
      savepoints := before ++ [(sp, created)]
      rollbacks := r.rollbacks ++ [⟨created, r.time⟩]
      time := r.time + 1 } := by
  obtain ⟨hfin, -, hpipe, hactive, hstatus, -, hadv, -⟩ :=
    rollbackToSavepoint_eq_ok h
  have hne : r.tc.status ≠ .committed := fun hc => hfin (hi.finalized hc)
  have hfirst : r.savepoints = (before ++ [(sp, created)]) ++ after := by simp [hsp]
  have hmem : ∀ s ∈ before ++ [(sp, created)], s ∈ r.savepoints :=
    fun s hs => hfirst ▸ mem_append_left _ hs
  have hu := hi.usable (sp, created) (hmem _ (by simp))
  -- what is not rolled back was acknowledged before the savepoint
  have hback : ∀ a ∈ r.acks, ¬ RolledBack (r.rollbacks ++ [⟨created, r.time⟩]) a.time →
      ¬ RolledBack r.rollbacks a.time ∧ a.time < created := by
    intro a ha hrb
    rw [rolledBack_append, not_or] at hrb
    have hlt := (hi.acks a ha).2
    have hd := hu.distinct a ha
    exact ⟨hrb.1, by have := hrb.2; omega⟩
  have hseq : ∀ a ∈ r.acks, a.found = false →
      ¬ RolledBack (r.rollbacks ++ [⟨created, r.time⟩]) a.time →
      r.Unproven a ∧ a.write.sequence < sp.seqNum := by
    intro a ha hnf hrb
    obtain ⟨hrb, hlt⟩ := hback a ha hrb
    exact ⟨⟨ha, hnf, hrb⟩, hu.before a ⟨ha, hnf, hrb⟩ hlt⟩
  refine ⟨hpipe ▸ hi.valid.rollbackToSavepointLocked hu.initial,
    hpipe ▸ hi.fresh.rollbackToSavepointLocked sp, hadv.readSeq hi.readSeq,
    fun hc => absurd (hstatus ▸ hc) hne, fun _ a ha hnf hrb => ?_, fun a ha => ?_,
    fun s hs => ?_, fun hact a ha => ?_⟩
  · obtain ⟨hun, hlt⟩ := hseq a ha hnf hrb
    show tc.pipeliner.InFlight a.write
    rw [hpipe, inFlight_rollbackToSavepointLocked hu.initial]
    exact ⟨hi.pending hne a ha hnf hun.2.2, hlt⟩
  · exact ⟨(hi.acks a ha).1.trans hadv.writeSeq, Nat.lt_succ_of_lt (hi.acks a ha).2⟩
  · have hus := hi.usable s (hmem s hs)
    refine ⟨Nat.lt_succ_of_lt hus.created, hus.initial, hus.distinct, fun a ha hlt => ?_⟩
    exact hus.before a (hseq a ha.1 ha.2.1 ha.2.2).1 hlt
  · have hzero : sp.seqNum = 0 := hu.initial (by rw [Savepoint.initial, ← hactive, hact]; rfl)
    have hlt := (hseq a ha.1 ha.2.1 ha.2.2).2
    omega

theorem Inv.step {r' : CommitRun} (h : r.Step r') : r'.Inv := by
  cases h with
  | createSavepoint h => exact hi.createSavepoint h
  | rollbackToSavepoint hsp h => exact hi.rollbackToSavepoint hsp h
  | unsent h _ =>
    obtain ⟨-, hq | ⟨hs, hn, -⟩⟩ := send_cases h
    · exact hi.next_quiet hq
    · exact hi.newEpoch hs hi.valid hi.fresh hn
  | batch hsend _ hsound hreceive => exact hi.batch hsend hsound hreceive
  | step => exact hi.next_quiet (quiet_step _)
  | configureStepping mode => exact hi.next_quiet (quiet_configureStepping _ mode)
  | clearRetryableErr => exact hi.next_quiet (quiet_clearRetryableErr _)

end

theorem Reachable.inv (h : Reachable r) : r.Inv := by
  induction h with
  | start steppingMode perStatementReadSnapshot =>
    refine ⟨⟨by simp [CondensableSpanSet.Valid], ?_⟩, fun x hx => absurd hx not_mem_nil,
      le_rfl, fun hc => ?_, fun _ a ha => absurd ha not_mem_nil, by simp, by simp,
      fun _ a ha => absurd ha.1 not_mem_nil⟩
    · rintro w ⟨x, hx, -⟩
      exact absurd hx not_mem_nil
    · cases hc
  | step _ hstep ih => exact ih.step hstep

/-! ## Reported commits -/

/-- A `QueryIntent` has found its intent. -/
def found (resp : Response) : Bool := resp.foundIntent || resp.foundUnpushedIntent

/-- What the sender below the committer returns for a batch; the intent that the
`QueryIntent` with index `i` finds is at `foundAt i`. -/
structure Lower (foundAt : Nat → Timestamp) (ba : BatchRequest) (br : BatchResponse) : Prop where
  length : br.responses.length = ba.requests.length
  /-- a `QueryIntent` that finds nothing fails the batch; it is only skipped if other requests,
  which are no point writes, have reached a limit -/
  skipped : ∀ (i : Nat) h args resp, ba.requests[i]? = some (.queryIntent h args) →
    br.responses[i]? = some resp → found resp = false →
      ∃ req ∈ ba.requests, TxnCommitter.allowsParallelCommit req = false ∧
        ∀ h et, req ≠ .endTxn h et
  /-- an `EndTxn` without in-flight writes is evaluated once all other requests have
  succeeded -/
  ordered : ∀ et, ba.endTxn? = some et → et.inFlightWrites = [] → br.status ≠ .pending →
    ∀ (i : Nat) h args resp, ba.requests[i]? = some (.queryIntent h args) →
      br.responses[i]? = some resp → found resp = true
  /-- the transaction is not below the intents that the batch has found -/
  timestamp : ∀ (i : Nat) h args resp, ba.requests[i]? = some (.queryIntent h args) →
    br.responses[i]? = some resp → found resp = true → foundAt i ≤ br.writeTimestamp

/-- The `EndTxn` that is sent once more, alone, if the transaction was staged below a write. -/
def retried (ba : BatchRequest) (h : RequestHeader) (et : EndTxn) : BatchRequest :=
  { ba with requests := [.endTxn h (withoutInFlightWrites et)] }

/-- A `QueryIntent` of the batch that was sent on has found the write. The sender below has
committed the transaction, at once or when the `EndTxn` was sent again; or it has only staged it,
and then the write is not above the timestamp that it was staged at and is listed in the `EndTxn`,
unless that was sent without in-flight writes. -/
def FoundInBatch (ignored : List IgnoredSeqNumRange) (ba : BatchRequest) (h : RequestHeader)
    (et : EndTxn) (first again : BatchRequest → Result) (foundAt : Nat → Timestamp)
    (w : SequencedWrite) : Prop :=
  ∃ (br : BatchResponse) (i : Nat) (resp : Response),
    first ba = .ok br ∧ ba.requests[i]? = some (TxnPipeliner.queryIntentFor ignored w) ∧
    br.responses[i]? = some resp ∧ found resp = true ∧
    (br.status = .committed ∨ br.status = .staging ∧
      ((∃ suffix, again (retried ba h et) = .ok suffix ∧ suffix.status = .committed) ∨
        (et.inFlightWrites = [] ∨ w ∈ et.inFlightWrites) ∧
          ∃ last, br.responses.getLast? = some last ∧ foundAt i ≤ last.stagingTimestamp))

/-- How a commit comes to be concluded. -/
theorem conclude_committed {hd : RequestHeader} {et : EndTxn} {br₁ : BatchResponse}
    {again : BatchRequest → Result} (h : conclude ba hd et br₁ again = .ok br)
    (hbr : br.status = .committed) :
    br₁.status = .committed ∨ br₁.status = .staging ∧
      ((∃ suffix, again (retried ba hd et) = .ok suffix ∧ suffix.status = .committed) ∨
        isTxnCommitImplicit br₁ = .ok true) := by
  unfold conclude at h
  cases hst : br₁.status with
  | committed => exact .inl rfl
  | pending | aborted =>
    rw [hst] at h
    cases h
  | staging =>
    rw [hst] at h
    refine .inr ⟨rfl, ?_⟩
    obtain ⟨implicit, himpl, h⟩ := Lib.bind_eq_ok.mp h
    split_ifs at h with hi
    · exact .inr (hi ▸ himpl)
    · obtain ⟨suffix, hsuffix, h⟩ := Lib.bind_eq_ok.mp h
      refine .inl ⟨suffix, hsuffix, ?_⟩
      dsimp only at h
      split_ifs at h
      cases h
      rw [hst] at hbr
      cases hs : suffix.status with
      | committed => rfl
      | pending | staging | aborted =>
        rw [hs] at hbr
        cases hbr

/-- How the committer comes to report a commit. -/
theorem sendLocked_committed {c c' : TxnCommitter} {header : BatchHeader}
    {first again : BatchRequest → Result} {hd : RequestHeader} {et : EndTxn}
    (hlast : ba.requests.getLast? = some (.endTxn hd et)) (hc : et.commit = true)
    (h : c.sendLocked st header ba first again = (c', .ok br)) :
    et.inFlightWrites = [] ∨
      ∃ br₁, first (adjustedBatch st header ba hd et) = .ok br₁ ∧
        conclude (adjustedBatch st header ba hd et) { hd with key := header.txnKey }
          (adjusted st ba et) br₁ again = .ok br := by
  unfold sendLocked at h
  rw [hlast] at h
  obtain ⟨-, h⟩ := Prod.mk.inj h
  obtain ⟨-, -, h⟩ := Lib.bind_eq_ok.mp h
  unfold sendEndTxn at h
  split_ifs at h with helide hkey hcommit
  · exact .inl helide.2
  · rw [hc] at hcommit
    cases hcommit
  · exact .inr (Lib.bind_eq_ok.mp h)

/-- The requests before the `EndTxn` are sent on as they are. -/
theorem getElem?_adjustedBatch (st : Settings) (header : BatchHeader) (hd : RequestHeader)
    (et : EndTxn) {i : Nat} (hi : i + 1 < ba.requests.length) :
    (adjustedBatch st header ba hd et).requests[i]? = ba.requests[i]? := by
  have hlt : i < ba.requests.dropLast.length := by
    rw [length_dropLast]
    omega
  show (ba.requests.dropLast ++ [_])[i]? = _
  rw [getElem?_append_left hlt, getElem?_dropLast, if_pos (by omega)]

theorem endTxn?_adjustedBatch (st : Settings) (header : BatchHeader) (ba : BatchRequest)
    (hd : RequestHeader) (et : EndTxn) :
    (adjustedBatch st header ba hd et).endTxn? = some (adjusted st ba et) := by
  unfold BatchRequest.endTxn? adjustedBatch
  rw [getLast?_concat]

theorem adjusted_cases (st : Settings) (ba : BatchRequest) (et : EndTxn) :
    (adjusted st ba et).inFlightWrites = [] ∨
      canCommitInParallel st ba et = true ∧ adjusted st ba et = et := by
  unfold adjusted
  split_ifs with h
  · exact .inl rfl
  · rw [not_and_or, not_not] at h
    rcases h with h | h
    · exact .inl h
    · exact .inr ⟨by simpa using h, rfl⟩

/-- All `QueryIntent`s of a batch that commits have found their intents. -/
theorem Lower.found_all {foundAt : Nat → Timestamp} {header : BatchHeader} {hd h : RequestHeader}
    {et : EndTxn} {i : Nat} {args : QueryIntent} {resp : Response}
    (hl : Lower foundAt (adjustedBatch st header ba hd et) br)
    (hp : br.status ≠ .pending)
    (hi : (adjustedBatch st header ba hd et).requests[i]? = some (.queryIntent h args))
    (hr : br.responses[i]? = some resp) : found resp = true := by
  rcases adjusted_cases st ba et with hnone | ⟨hpar, -⟩
  · exact hl.ordered _ (endTxn?_adjustedBatch st header ba hd et) hnone hp i h args resp hi hr
  · by_contra hnf
    obtain ⟨req, hreq, hno, hne⟩ := hl.skipped i h args resp hi hr (Bool.not_eq_true _ ▸ hnf)
    rcases mem_append.mp hreq with hreq | hreq
    · unfold canCommitInParallel at hpar
      rw [Bool.and_eq_true, all_eq_true] at hpar
      rw [hpar.2 req hreq] at hno
      cases hno
    · exact hne _ _ (mem_singleton.mp hreq)

theorem le_stagingTimestamp (h : isTxnCommitImplicit br = .ok true) :
    ∃ last, br.responses.getLast? = some last ∧ br.writeTimestamp ≤ last.stagingTimestamp := by
  unfold isTxnCommitImplicit at h
  split at h
  · cases h
  · rename_i last hlast
    split_ifs at h
    have hnot := Except.ok.inj h
    rw [Bool.not_eq_true', decide_eq_false_iff_not] at hnot
    exact ⟨last, hlast, not_lt.mp hnot⟩

/-- A request touches the key of a write; a commit touches all. -/
def Overlaps (req : Request) (w : SequencedWrite) : Prop :=
  match req with
  | .endTxn _ et => et.commit = true
  | req => w.key ∈ req.header.span

theorem chainsOnto_of_overlaps {req : Request} {w : SequencedWrite} (h : Overlaps req w) :
    chainsOnto req w = true := by
  unfold chainsOnto
  split_ifs
  · rfl
  · cases req with
    | endTxn hd et => exact h
    | _ => exact decide_eq_true h

/-- What a batch that is sent looks like to a write that is unproven. -/
theorem Inv.sent {requests : List Request} {a : Ack} (hi : r.Inv)
    (hsend : r.tc.send st requests = (tc, .sent ba)) (ha : r.Unproven a) :
    (∀ (i : Nat) req, ba.requests[i]? = some req → (∀ h args, req ≠ .queryIntent h args) →
      Overlaps req a.write → ∃ j, j < i ∧
        ba.requests[j]? = some (queryIntentFor r.tc.ignoredSeqNums a.write)) ∧
    ∀ et, ba.endTxn? = some et → a.write ∈ et.inFlightWrites := by
  have hne := (send_sent hsend).2.1
  obtain ⟨-, hinter⟩ := send_eq_sent hsend
  obtain ⟨seqNums, requests', hseq, hprep, -⟩ := sendToInterceptors_sent hinter
  have hfl : r.tc.pipeliner.InFlight a.write := hi.pending hne a ha.1 ha.2.1 ha.2.2
  have hchain := hi.fresh.chained_prepare hprep
  refine ⟨fun i req hreq hnq hover => ?_, fun et het => ?_⟩
  · exact hchain i req hreq hnq a.write (inFlight_iff_mem_map.mp hfl) (chainsOnto_of_overlaps hover)
  · obtain ⟨hd, et₀, -, rfl⟩ := endTxn?_prepare hprep het
    exact mem_inFlightWrites_attached hfl

/-- A commit is only reported if every write of the epoch that was acknowledged by
asynchronous consensus and not rolled back has been found: by an earlier `QueryIntent` or by
one of the committing batch. Any request that overlaps a write that has not been found is sent
with a `QueryIntent` for the write before it. -/
theorem commit_proven (h : Reachable r) :
    (∀ st requests tc, r.tc.send st requests = (tc, .finalizedLocally) →
      ∀ a ∈ r.acks, ¬ RolledBack r.rollbacks a.time → a.found = true) ∧
    ∀ st requests tc ba, r.tc.send st requests = (tc, .sent ba) →
      (∀ (i : Nat) req, ba.requests[i]? = some req → (∀ h args, req ≠ .queryIntent h args) →
        ∀ a ∈ r.acks, ¬ RolledBack r.rollbacks a.time → a.found = false →
          Overlaps req a.write → ∃ j, j < i ∧
            ba.requests[j]? = some (TxnPipeliner.queryIntentFor r.tc.ignoredSeqNums a.write)) ∧
      ∀ header first again foundAt c br hd et, ba.requests.getLast? = some (.endTxn hd et) →
        et.commit = true → (∀ ba₁ br₁, first ba₁ = .ok br₁ → Lower foundAt ba₁ br₁) →
        r.committer.sendLocked st header ba first again = (c, .ok br) → br.status = .committed →
          ∀ a ∈ r.acks, ¬ RolledBack r.rollbacks a.time →
            a.found = true ∨ FoundInBatch r.tc.ignoredSeqNums (adjustedBatch st header ba hd et)
              { hd with key := header.txnKey } (adjusted st ba et) first again foundAt
              a.write := by
  have hi := h.inv
  refine ⟨fun st requests tc hsend a ha hrb => ?_, fun st requests tc ba hsend => ⟨?_, ?_⟩⟩
  · obtain ⟨hne, hlocks⟩ := send_finalizedLocally hsend
    by_contra hnf
    have hfl := hi.pending hne a ha (Bool.not_eq_true _ ▸ hnf) hrb
    rw [hasAcquiredLocks_iff.mpr (.inl ⟨_, hfl⟩)] at hlocks
    cases hlocks
  · intro i req hreq hnq a ha hrb hnf hover
    exact (hi.sent hsend ⟨ha, hnf, hrb⟩).1 i req hreq hnq hover
  · intro header first again foundAt c br hd et hlast hc hlower hres hbr a ha hrb
    cases hnf : a.found with
    | true => exact .inl rfl
    | false =>
      right
      obtain ⟨hchain, hlisted⟩ := hi.sent hsend ⟨ha, hnf, hrb⟩
      have het : ba.endTxn? = some et := by
        unfold BatchRequest.endTxn?
        rw [hlast]
      -- the `EndTxn` comes after a `QueryIntent` for the write
      have hend : ba.requests[ba.requests.length - 1]? = some (.endTxn hd et) := by
        rw [← List.getLast?_eq_getElem?]
        exact hlast
      obtain ⟨j, hj, hq⟩ := hchain _ _ hend (by simp) hc
      rcases sendLocked_committed hlast hc hres with hnone | ⟨br₁, h₁, hconc⟩
      · have hmem := hlisted et het
        rw [hnone] at hmem
        exact absurd hmem List.not_mem_nil
      · have hl := hlower _ br₁ h₁
        have hq' := (getElem?_adjustedBatch st header hd et
          (show j + 1 < ba.requests.length by omega)).trans hq
        have hjlt : j < br₁.responses.length := by
          rw [hl.length]
          exact (List.getElem?_eq_some_iff.mp hq').1
        have hresp : br₁.responses[j]? = some br₁.responses[j] := List.getElem?_eq_getElem hjlt
        have hhow := conclude_committed hconc hbr
        have hp : br₁.status ≠ .pending := by
          rcases hhow with hst | ⟨hst, -⟩
          · rw [hst]; nofun
          · rw [hst]; nofun
        have hfound := hl.found_all hp hq' hresp
        refine ⟨br₁, j, _, h₁, hq', hresp, hfound, hhow.imp_right fun ⟨hst, how⟩ => ⟨hst, ?_⟩⟩
        refine how.imp_right fun himpl => ⟨?_, ?_⟩
        · exact (adjusted_cases st ba et).imp_right fun ⟨_, heq⟩ => by
            rw [heq]
            exact hlisted et het
        · obtain ⟨last, hlast', hle⟩ := le_stagingTimestamp himpl
          exact ⟨last, hlast', (hl.timestamp j _ _ _ hq' hresp hfound).trans hle⟩

/-- A put that is acknowledged by asynchronous consensus and a commit that proves it. -/
theorem commit_proven_put :
    ∃ (r : CommitRun) (ba : BatchRequest) (et : EndTxn) (first again : BatchRequest → Result)
        (foundAt : Nat → Timestamp),
      Reachable r ∧ r.acks = [⟨⟨[1], 1, .intent⟩, 0, false⟩] ∧
      first ba = .ok ⟨.staging, ⟨5, 0⟩, [{ foundIntent := true }, { stagingTimestamp := ⟨5, 0⟩ }]⟩ ∧
      FoundInBatch r.tc.ignoredSeqNums ba ⟨[1], [], 2⟩ et first again foundAt
        ⟨[1], 1, .intent⟩ := by
  let put : Request := .pointWrite .put ⟨[1], [], 1⟩
  let w : SequencedWrite := ⟨[1], 1, .intent⟩
  let tc₀ : TxnCoordSender := { active := true, seqNums := ⟨1, 1, false⟩ }
  let tc₁ : TxnCoordSender := { tc₀ with pipeliner := { ifWrites := [⟨w, 0⟩] } }
  let et : EndTxn := { commit := true, inFlightWrites := [w] }
  let ba : BatchRequest := ⟨[queryIntentFor [] w, .endTxn ⟨[], [], 2⟩ et], false⟩
  let ba' : BatchRequest := ⟨[queryIntentFor [] w, .endTxn ⟨[1], [], 2⟩ et], false⟩
  let br : BatchResponse :=
    ⟨.staging, ⟨5, 0⟩, [{ foundIntent := true }, { stagingTimestamp := ⟨5, 0⟩ }]⟩
  let first : BatchRequest → Result :=
    fun b => if b = ba' then .ok br else throw TxnCommitter.failure
  have h := (Reachable.start false false).step (@Step.batch _ {} [.pointWrite .put ⟨[1], [], 0⟩]
    tc₀ tc₁ ⟨[put], true⟩ oneRange ⟨[1], {}, 0⟩ (fun _ => .ok { responses := [{}] })
    (fun _ => throw TxnCommitter.failure) {} _ (by decide +kernel) (by rfl) (sound_put (by simp))
    (by decide +kernel))
  have hlower : ∀ ba₁ br₁, first ba₁ = .ok br₁ → Lower (fun _ => ⟨5, 0⟩) ba₁ br₁ := by
    intro ba₁ br₁ hfirst
    have heq : ba₁ = ba' ∧ br₁ = br := by
      by_cases hba : ba₁ = ba'
      · rw [show first ba₁ = .ok br from if_pos hba] at hfirst
        exact ⟨hba, (Except.ok.inj hfirst).symm⟩
      · rw [show first ba₁ = throw TxnCommitter.failure from if_neg hba] at hfirst
        cases hfirst
    rw [heq.1, heq.2]
    -- the only `QueryIntent` has found its intent
    have hfound : ∀ (i : Nat) hd args resp, ba'.requests[i]? = some (.queryIntent hd args) →
        br.responses[i]? = some resp → found resp = true := by
      intro i hd args resp hi hr
      rcases i with _ | _ | i
      · cases hr
        rfl
      · cases hi
      · cases hi
    refine ⟨rfl, fun i hd args resp hi hr hnf => ?_, fun _ _ _ _ => hfound,
      fun _ _ _ _ _ _ _ => le_rfl⟩
    rw [hfound i hd args resp hi hr] at hnf
    cases hnf
  have hsend : tc₁.send {} [.endTxn ⟨[], [], 0⟩ { commit := true }] =
      ({ tc₁ with
        seqNums := ⟨2, 2, false⟩
        pipeliner := { ifWrites := [⟨w, 1⟩], ifWritesChainIndex := 1 } }, .sent ba) := by
    decide +kernel
  have hres : ({} : TxnCommitter).sendLocked {} ⟨[1], {}, 0⟩ ba first
      (fun _ => throw TxnCommitter.failure) = ({}, .ok { br with status := .committed }) := by
    decide +kernel
  have hproven := ((commit_proven h).2 {} _ _ ba hsend).2 ⟨[1], {}, 0⟩ first _ (fun _ => ⟨5, 0⟩)
    _ _ _ et rfl rfl hlower hres rfl ⟨w, 0, false⟩ (List.mem_singleton_self _)
    (by simp [RolledBack, next])
  exact ⟨_, ba', et, first, _, fun _ => ⟨5, 0⟩, h, rfl, if_pos rfl,
    hproven.resolve_left (by simp)⟩

end CommitRun

end Cockroach.KvCoord
