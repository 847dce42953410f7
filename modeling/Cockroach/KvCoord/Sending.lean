import Cockroach.KvCoord.Coordinator
import Cockroach.KvCoord.LockTracking

/-!
# What a call of the coordinator does

`Send` either leaves the epoch, its ignored sequence numbers and what the pipeliner tracks as
they are (`Quiet`) or starts a new epoch (`NewEpoch`). Writes and `EndTxn`s leave with sequence
numbers of their own, above all that were given out before (`send_sent`).
-/

namespace Cockroach.KvCoord

open Kvpb Roachpb Storage TxnSeqNumAllocator List

/-! ## Sequence numbers -/

namespace TxnSeqNumAllocator

variable {s s' : TxnSeqNumAllocator}

/-- The numbers only go up, and what is read has been written. -/
structure Advances (s s' : TxnSeqNumAllocator) : Prop where
  writeSeq : s.writeSeq ≤ s'.writeSeq
  readSeq : s.readSeq ≤ s.writeSeq → s'.readSeq ≤ s'.writeSeq

theorem Advances.refl (s : TxnSeqNumAllocator) : Advances s s := ⟨le_rfl, id⟩

theorem Advances.trans {s'' : TxnSeqNumAllocator} (h : Advances s s') (h' : Advances s' s'') :
    Advances s s'' :=
  ⟨h.writeSeq.trans h'.writeSeq, fun hr => h'.readSeq (h.readSeq hr)⟩

theorem stepReadSeqLocked_spec (h : s.stepReadSeqLocked = .ok s') :
    s'.writeSeq = s.writeSeq ∧ s'.readSeq = s.writeSeq := by
  unfold stepReadSeqLocked at h
  split_ifs at h
  cases h
  exact ⟨rfl, rfl⟩

theorem stepWriteSeqLocked_spec (h : s.stepWriteSeqLocked = .ok s') :
    s'.writeSeq = s.writeSeq + 1 ∧ (s'.readSeq = s.readSeq ∨ s'.readSeq = s'.writeSeq) := by
  unfold stepWriteSeqLocked at h
  dsimp only at h
  split_ifs at h
  · cases h
    exact ⟨rfl, .inl rfl⟩
  · obtain ⟨hw, hr⟩ := stepReadSeqLocked_spec h
    exact ⟨hw, .inr (hr.trans hw.symm)⟩

theorem stepWriteSeqLocked_advances (h : s.stepWriteSeqLocked = .ok s') : Advances s s' := by
  have := stepWriteSeqLocked_spec h
  exact ⟨by omega, fun _ => by omega⟩

theorem stepsWriteSeq_setHeader (req : Request) (h : RequestHeader) :
    stepsWriteSeq (req.setHeader h) = stepsWriteSeq req := by
  cases req <;> rfl

theorem header_setHeader (req : Request) (h : RequestHeader) : (req.setHeader h).header = h := by
  cases req <;> rfl

/-- One round of the loop: a request that steps the sequence number gets the new one. -/
theorem assign_cons {req : Request} {rest requests' : List Request}
    (h : s.assign (req :: rest) = .ok (s', requests')) :
    ∃ (s₁ : TxnSeqNumAllocator) (seq : Nat) (rest' : List Request),
      s₁.assign rest = .ok (s', rest') ∧
      requests' = req.setHeader { req.header with sequence := seq } :: rest' ∧
      Advances s s₁ ∧ (stepsWriteSeq req = true → s.writeSeq < seq ∧ seq ≤ s₁.writeSeq) ∧
      (s.readSeq ≤ s.writeSeq → seq ≤ s₁.writeSeq) := by
  unfold assign at h
  split_ifs at h with hs
  · obtain ⟨s₁, h₁, h⟩ := Lib.bind_eq_ok.mp h
    obtain ⟨⟨s₂, rest'⟩, h₂, h⟩ := Lib.bind_eq_ok.mp h
    obtain ⟨rfl, rfl⟩ := Prod.mk.inj (Except.ok.inj h)
    have hstep := stepWriteSeqLocked_spec h₁
    exact ⟨s₁, s₁.writeSeq, rest', h₂, rfl, stepWriteSeqLocked_advances h₁, fun _ => by omega,
      fun _ => le_rfl⟩
  · obtain ⟨⟨s₂, rest'⟩, h₂, h⟩ := Lib.bind_eq_ok.mp h
    obtain ⟨rfl, rfl⟩ := Prod.mk.inj (Except.ok.inj h)
    exact ⟨s, s.readSeq, rest', h₂, rfl, .refl s, fun h => absurd h hs, id⟩

variable {requests requests' : List Request}

/-- The requests that step the sequence number get new ones, and no request gets one that is
yet to come. -/
theorem assign_spec (h : s.assign requests = .ok (s', requests')) :
    Advances s s' ∧ (∀ req ∈ requests', stepsWriteSeq req = true →
      s.writeSeq < req.header.sequence ∧ req.header.sequence ≤ s'.writeSeq) ∧
      (s.readSeq ≤ s.writeSeq → ∀ req ∈ requests', req.header.sequence ≤ s'.writeSeq) := by
  induction requests generalizing s requests' with
  | nil =>
    obtain ⟨rfl, rfl⟩ := Prod.mk.inj (Except.ok.inj h)
    exact ⟨.refl _, by simp, by simp⟩
  | cons req rest ih =>
    obtain ⟨s₁, seq, rest', h₁, rfl, hadv, hseq, hread⟩ := assign_cons h
    obtain ⟨hadv', hrest, hread'⟩ := ih h₁
    refine ⟨hadv.trans hadv', fun r hr hrs => ?_, fun hle r hr => ?_⟩
    · rcases mem_cons.mp hr with rfl | hr
      · rw [stepsWriteSeq_setHeader] at hrs
        rw [header_setHeader]
        exact ⟨(hseq hrs).1, (hseq hrs).2.trans hadv'.writeSeq⟩
      · exact ⟨lt_of_le_of_lt hadv.writeSeq (hrest r hr hrs).1, (hrest r hr hrs).2⟩
    · rcases mem_cons.mp hr with rfl | hr
      · rw [header_setHeader]
        exact (hread hle).trans hadv'.writeSeq
      · exact hread' (hadv.readSeq hle) r hr

/-- Nothing but the sequence numbers changes. -/
theorem mem_assign (h : s.assign requests = .ok (s', requests')) :
    (∀ req' ∈ requests', ∃ req ∈ requests, ∃ seq,
      req' = req.setHeader { req.header with sequence := seq }) ∧
    ∀ req ∈ requests, ∃ seq, req.setHeader { req.header with sequence := seq } ∈ requests' := by
  induction requests generalizing s requests' with
  | nil =>
    obtain ⟨-, rfl⟩ := Prod.mk.inj (Except.ok.inj h)
    exact ⟨nofun, nofun⟩
  | cons req rest ih =>
    obtain ⟨s₁, seq, rest', h₁, rfl, -⟩ := assign_cons h
    obtain ⟨hback, hforth⟩ := ih h₁
    refine ⟨fun r' hr' => ?_, fun r hr => ?_⟩
    · rcases mem_cons.mp hr' with rfl | hr'
      · exact ⟨req, mem_cons_self, seq, rfl⟩
      · obtain ⟨r, hr, heq⟩ := hback r' hr'
        exact ⟨r, mem_cons_of_mem _ hr, heq⟩
    · rcases mem_cons.mp hr with rfl | hr
      · exact ⟨seq, mem_cons_self⟩
      · obtain ⟨seq', hmem⟩ := hforth r hr
        exact ⟨seq', mem_cons_of_mem _ hmem⟩

theorem stepsWriteSeq_iff {req : Request} :
    stepsWriteSeq req = true ↔ (∃ h et, req = .endTxn h et) ∨ req.isIntentWrite = true := by
  cases req with
  | endTxn h et => exact ⟨fun _ => .inl ⟨h, et, rfl⟩, fun _ => rfl⟩
  | _ => exact ⟨.inr, fun h => h.resolve_left (by simp)⟩

theorem assign_of_sendLocked {ignored : List IgnoredSeqNumRange}
    (h : s.sendLocked ignored requests = .ok (s', requests')) :
    s.assign requests = .ok (s', requests') := by
  unfold sendLocked at h
  split_ifs at h
  exact h

end TxnSeqNumAllocator

namespace TxnCoordSender

variable {tc tc' : TxnCoordSender}

/-- A call that goes on in the same epoch. -/
structure Quiet (tc tc' : TxnCoordSender) : Prop where
  epoch : tc'.epoch = tc.epoch
  ignored : tc'.ignoredSeqNums = tc.ignoredSeqNums
  seqNums : tc.seqNums.Advances tc'.seqNums
  keeps : tc.pipeliner.lockFootprint.Valid → tc.pipeliner.Keeps tc'.pipeliner
  active : tc.active = true → tc'.active = true
  status : tc'.status ≠ .committed → tc.status ≠ .committed
  committed : (tc.status = .committed → tc.txnState = .finalized) →
    tc'.status = .committed → tc'.txnState = .finalized

/-- A call that starts a new epoch, once the pipeliner is `tp`. -/
structure NewEpoch (tc : TxnCoordSender) (tp : TxnPipeliner) (tc' : TxnCoordSender) : Prop where
  epoch : tc'.epoch = tc.epoch + 1
  ignored : tc'.ignoredSeqNums = []
  seqNums : tc'.seqNums.writeSeq = 0 ∧ tc'.seqNums.readSeq = 0
  pipeliner : tc'.pipeliner = tp.epochBumpedLocked
  status : tc'.status = tc.status

/-- Only the epoch and the status count of where it started from. -/
theorem NewEpoch.of_eq {tc₀ : TxnCoordSender} {tp : TxnPipeliner} (h : NewEpoch tc tp tc')
    (he : tc.epoch = tc₀.epoch) (hs : tc.status = tc₀.status) : NewEpoch tc₀ tp tc' :=
  { h with epoch := h.epoch.trans (congrArg (· + 1) he), status := h.status.trans hs }

theorem Quiet.refl (tc : TxnCoordSender) : Quiet tc tc :=
  ⟨rfl, rfl, .refl _, .refl, id, id, id⟩

theorem Quiet.trans {tc'' : TxnCoordSender} (h : Quiet tc tc') (h' : Quiet tc' tc'') :
    Quiet tc tc'' where
  epoch := h'.epoch.trans h.epoch
  ignored := h'.ignored.trans h.ignored
  seqNums := h.seqNums.trans h'.seqNums
  keeps hv := (h.keeps hv).trans (h'.keeps (h.keeps hv).valid)
  active ha := h'.active (h.active ha)
  status hs := h.status (h'.status hs)
  committed hc := h'.committed (h.committed hc)

theorem quiet_activate (tc : TxnCoordSender) : Quiet tc { tc with active := true } :=
  ⟨rfl, rfl, .refl _, .refl, fun _ => rfl, id, id⟩

theorem quiet_fail (hs : tc.status ≠ .committed) : Quiet tc tc.fail :=
  ⟨rfl, rfl, .refl _, .refl, id, id, fun _ hc => absurd hc hs⟩

/-- A retriable error. -/
theorem handleRetryableErrLocked_cases (d : ErrorDetail) (hs : tc.status ≠ .committed) :
    Quiet tc (tc.handleRetryableErrLocked d) ∨
      NewEpoch tc tc.pipeliner (tc.handleRetryableErrLocked d) := by
  unfold handleRetryableErrLocked
  split_ifs
  · exact .inl ⟨rfl, rfl, .refl _, .refl, id, fun _ => hs, fun _ hc => by cases hc⟩
  · exact .inl ⟨rfl, rfl, .refl _, .refl, id, id, fun _ hc => absurd hc hs⟩
  · exact .inr ⟨rfl, rfl, ⟨rfl, rfl⟩, rfl, rfl⟩

/-! ## Sending a batch -/

variable {requests : List Request} {st : Settings} {ba : BatchRequest}

theorem singleEndTxn?_eq_some {et : EndTxn}
    (h : singleEndTxn? requests = some et) : ∃ hd, requests = [.endTxn hd et] := by
  unfold singleEndTxn? at h
  split at h
  · cases h
    exact ⟨_, rfl⟩
  · cases h

/-- What is let through once the transaction is no longer pending is a rollback. -/
theorem accepts_cases (h : tc.accepts requests = true) : tc.status ≠ .committed ∧
      (tc.status = .pending ∨ ∃ hd et, requests = [.endTxn hd et] ∧ et.commit = false) := by
  unfold accepts at h
  rw [Bool.or_eq_true, Bool.and_eq_true, Bool.and_eq_true, decide_eq_true_iff, decide_eq_true_iff,
    decide_eq_true_iff, Option.any_eq_true] at h
  rcases h with ⟨⟨et, het, hc⟩, hs⟩ | ⟨-, hs⟩
  · obtain ⟨hd, rfl⟩ := singleEndTxn?_eq_some het
    exact ⟨hs, .inr ⟨hd, et, rfl, by simpa using hc⟩⟩
  · exact ⟨by rw [hs]; decide, .inl hs⟩

theorem sendToInterceptors_quiet {s : Sent}
    (hs : tc.status ≠ .committed) (h : tc.sendToInterceptors st requests = (tc', s)) :
    Quiet tc tc' ∧ tc'.active = tc.active := by
  unfold sendToInterceptors at h
  split at h
  · cases h
    exact ⟨quiet_fail hs, rfl⟩
  · rename_i seqNums requests' hseq
    have hle := (assign_spec (assign_of_sendLocked hseq)).1
    have hkeeps : tc.pipeliner.lockFootprint.Valid → tc.pipeliner.Keeps
        (tc.pipeliner.prepare st tc.ignoredSeqNums { requests := requests' }).1 :=
      fun hv => TxnPipeliner.prepare_keeps hv st _ _
    dsimp only at h
    split at h
    · rename_i pipeliner e hprep
      rw [hprep] at hkeeps
      cases h
      exact ⟨⟨rfl, rfl, hle, hkeeps, id, id, fun _ hc => absurd hc hs⟩, rfl⟩
    · rename_i pipeliner ba hprep
      rw [hprep] at hkeeps
      cases h
      exact ⟨⟨rfl, rfl, hle, hkeeps, id, id, id⟩, rfl⟩

theorem finalizeNonLockingTxnLocked_cases {et : EndTxn} {s : Sent} (hs : tc.status ≠ .committed)
    (h : tc.finalizeNonLockingTxnLocked et = (tc', s)) :
    (∀ ba, s ≠ .sent ba) ∧ tc'.active = tc.active ∧
      (Quiet tc tc' ∨ NewEpoch tc tc.pipeliner tc') := by
  unfold finalizeNonLockingTxnLocked at h
  split at h
  · cases h
    refine ⟨by simp, ?_, handleRetryableErrLocked_cases _ hs⟩
    unfold handleRetryableErrLocked
    split_ifs <;> rfl
  · cases h
    exact ⟨by simp, rfl, .inl ⟨rfl, rfl, .refl _, .refl, id, fun _ => hs, fun _ _ => rfl⟩⟩

/-- What a `Send` does up to where the batch leaves the pipeliner. -/
theorem send_cases {s : Sent} (h : tc.send st requests = (tc', s)) :
    tc'.active = true ∧ (Quiet tc tc' ∨
      tc.status ≠ .committed ∧ NewEpoch tc tc.pipeliner tc' ∧ ∀ ba, s ≠ .sent ba) := by
  unfold send at h
  dsimp only at h
  split_ifs at h with hacc hnil hlock
  · cases h
    exact ⟨rfl, .inl (quiet_activate tc)⟩
  · cases h
    exact ⟨rfl, .inl (quiet_activate tc)⟩
  · have hs := (accepts_cases (by simpa using hacc)).1
    obtain ⟨hq, hactive⟩ := sendToInterceptors_quiet hs h
    exact ⟨hactive, .inl ((quiet_activate tc).trans hq)⟩
  · have hs := (accepts_cases (by simpa using hacc)).1
    split at h
    · obtain ⟨hsent, hactive, hq | hn⟩ := finalizeNonLockingTxnLocked_cases hs h
      · exact ⟨hactive, .inl ((quiet_activate tc).trans hq)⟩
      · exact ⟨hactive, .inr ⟨hs, hn.of_eq rfl rfl, hsent⟩⟩
    · obtain ⟨hq, hactive⟩ := sendToInterceptors_quiet hs h
      exact ⟨hactive, .inl ((quiet_activate tc).trans hq)⟩

/-- A batch is only sent in the same epoch. -/
theorem send_quiet (h : tc.send st requests = (tc', .sent ba)) : Quiet tc tc' :=
  (send_cases h).2.resolve_right fun hn => hn.2.2 ba rfl

theorem sendToInterceptors_sent (h : tc.sendToInterceptors st requests = (tc', .sent ba)) :
    ∃ seqNums requests',
      tc.seqNums.assign requests = .ok (seqNums, requests') ∧
      tc.pipeliner.prepare st tc.ignoredSeqNums { requests := requests' } =
        (tc'.pipeliner, .ok ba) ∧
      tc' = { tc with seqNums, pipeliner := tc'.pipeliner } := by
  unfold sendToInterceptors at h
  split at h
  · cases (Prod.mk.inj h).2
  · rename_i seqNums requests' hseq
    dsimp only at h
    split at h
    · cases (Prod.mk.inj h).2
    · rename_i pipeliner ba' hprep
      obtain ⟨rfl, hba⟩ := Prod.mk.inj h
      obtain rfl := Sent.sent.inj hba
      exact ⟨seqNums, requests', assign_of_sendLocked hseq, hprep, rfl⟩

/-- A batch that is sent has gone through the allocator and the pipeliner. -/
theorem send_eq_sent (h : tc.send st requests = (tc', .sent ba)) : tc.accepts requests = true ∧
      { tc with active := true }.sendToInterceptors st requests = (tc', .sent ba) := by
  unfold send at h
  dsimp only at h
  split_ifs at h with hacc hnil hlock
  · cases (Prod.mk.inj h).2
  · cases (Prod.mk.inj h).2
  · have haccept : { tc with active := true }.accepts requests = true := by simpa using hacc
    exact ⟨haccept, h⟩
  · have haccept : { tc with active := true }.accepts requests = true := by simpa using hacc
    split at h
    · exact absurd rfl ((finalizeNonLockingTxnLocked_cases (accepts_cases haccept).1 h).1 ba)
    · exact ⟨haccept, h⟩

/-- Writes and `EndTxn`s are sent with new sequence numbers, and what is sent by a transaction
that is no longer pending cannot commit. -/
theorem send_sent (h : tc.send st requests = (tc', .sent ba)) :
    tc'.status = tc.status ∧ tc.status ≠ .committed ∧
      (∀ et, ba.endTxn? = some et → et.commit = true → tc.status = .pending) ∧
      ∀ req ∈ ba.requests, stepsWriteSeq req = true → tc.seqNums.writeSeq < req.header.sequence ∧
          req.header.sequence ≤ tc'.seqNums.writeSeq := by
  obtain ⟨hacc, h⟩ := send_eq_sent h
  obtain ⟨seqNums, requests', hseq, hprep, htc⟩ := sendToInterceptors_sent h
  obtain ⟨hs, hcases⟩ := accepts_cases hacc
  rw [htc]
  refine ⟨rfl, hs, fun et het hc => ?_, fun req' hreq' hsteps => ?_⟩
  · rcases hcases with hp | ⟨hd, et₀, rfl, hc₀⟩
    · exact hp
    -- the only request is an `EndTxn` that does not commit
    · obtain ⟨hd₁, hmem⟩ := BatchRequest.mem_of_endTxn? het
      rcases TxnPipeliner.mem_prepare hprep hmem with ⟨req, hreq, ha⟩ | ⟨w, -, heq⟩
      · obtain ⟨hd₂, et₂, rfl, hcommit⟩ := ha.endTxn hd₁ et rfl
        obtain ⟨req₀, hreq₀, seq, heq⟩ := (mem_assign hseq).1 _ hreq
        rw [mem_singleton.mp hreq₀] at heq
        obtain ⟨-, rfl⟩ := Request.endTxn.inj heq
        rw [hc₀, hc] at hcommit
        cases hcommit
      · cases heq
  · rcases TxnPipeliner.mem_prepare hprep hreq' with ⟨req, hreq, ha⟩ | ⟨w, -, rfl⟩
    · rw [ha.header]
      refine (assign_spec hseq).2.1 req hreq ?_
      rw [stepsWriteSeq_iff] at hsteps ⊢
      rcases hsteps with ⟨hd, et, heq⟩ | hiw
      · obtain ⟨hd', et', heq', -⟩ := ha.endTxn hd et heq
        exact .inl ⟨hd', et', heq'⟩
      · exact .inr (ha.isIntentWrite ▸ hiw)
    · cases hsteps

/-- A transaction that is finalized without sending anything has no locks. -/
theorem send_finalizedLocally (h : tc.send st requests = (tc', .finalizedLocally)) :
    tc.status ≠ .committed ∧ tc.pipeliner.hasAcquiredLocks = false := by
  have hinter : ∀ {tc : TxnCoordSender},
      tc.sendToInterceptors st requests ≠ (tc', .finalizedLocally) := by
    intro tc h
    unfold sendToInterceptors at h
    split at h
    · cases (Prod.mk.inj h).2
    · dsimp only at h
      split at h
      · cases (Prod.mk.inj h).2
      · cases (Prod.mk.inj h).2
  unfold send at h
  dsimp only at h
  split_ifs at h with hacc hnil hlock
  · cases (Prod.mk.inj h).2
  · cases (Prod.mk.inj h).2
  · exact absurd h hinter
  · have haccept : { tc with active := true }.accepts requests = true := by simpa using hacc
    exact ⟨(accepts_cases haccept).1, by simpa using hlock⟩

/-- No request is sent with a sequence number that is yet to come. -/
theorem send_sequence_le (h : tc.send st requests = (tc', .sent ba))
    (hread : tc.seqNums.readSeq ≤ tc.seqNums.writeSeq) :
    ∀ req ∈ ba.requests, req.header.sequence ≤ tc'.seqNums.writeSeq := by
  obtain ⟨-, h⟩ := send_eq_sent h
  obtain ⟨seqNums, requests', hseq, hprep, htc⟩ := sendToInterceptors_sent h
  intro req' hreq'
  rw [htc]
  rcases TxnPipeliner.mem_prepare hprep hreq' with ⟨req, hreq, ha⟩ | ⟨w, -, rfl⟩
  · rw [ha.header]
    exact (assign_spec hseq).2.2 hread req hreq
  · exact Nat.zero_le _

/-! ## Receiving a result -/

theorem Quiet.finalize (h : Quiet tc tc') : Quiet tc { tc' with txnState := .finalized } :=
  { h with committed := fun _ _ => rfl }

theorem forwardStatus_eq_committed {s s' : TransactionStatus} (hs : s ≠ .committed)
    (h : forwardStatus s s' = .committed) : s' = .committed := by
  cases s with
  | pending => exact h
  | staging => cases s' <;> first | rfl | cases h
  | committed => exact absurd rfl hs
  | aborted => cases h

/-- An error never makes a transaction known to be committed. -/
theorem updateStateLocked_error (err : Error) (hs : tc.status ≠ .committed) :
    (tc.updateStateLocked (.error err)).active = tc.active ∧
      (tc.updateStateLocked (.error err)).status ≠ .committed ∧
      (Quiet tc (tc.updateStateLocked (.error err)) ∨
        NewEpoch tc tc.pipeliner (tc.updateStateLocked (.error err))) := by
  have hretry : ∀ d : ErrorDetail,
      let tc₁ := { tc with writeTimestamp := tc.writeTimestamp.forward err.writeTimestamp }
      (tc₁.handleRetryableErrLocked d).active = tc.active ∧
        (tc₁.handleRetryableErrLocked d).status ≠ .committed ∧
        (Quiet tc (tc₁.handleRetryableErrLocked d) ∨
          NewEpoch tc tc.pipeliner (tc₁.handleRetryableErrLocked d)) := by
    intro d tc₁
    refine ⟨?_, ?_, ?_⟩
    · unfold handleRetryableErrLocked
      split_ifs <;> rfl
    · unfold handleRetryableErrLocked
      split_ifs
      · show TransactionStatus.aborted ≠ .committed
        decide
      · exact hs
      · exact hs
    · rcases @handleRetryableErrLocked_cases tc₁ d hs with h | h
      · exact .inl { h with }
      · exact .inr (h.of_eq rfl rfl)
  unfold updateStateLocked
  dsimp only
  cases err.detail with
  | unambiguous => exact ⟨rfl, hs, .inl ⟨rfl, rfl, .refl _, .refl, id, id, id⟩⟩
  | other => exact ⟨rfl, hs, .inl ⟨rfl, rfl, .refl _, .refl, id, id, fun _ hc => absurd hc hs⟩⟩
  | _ => exact hretry _

/-- What becomes of the coordinator once the pipeliner has the result and is `tp`. -/
theorem receive_cases {ri : RangeIterator} {res : Result}
    (hs : tc.status ≠ .committed) (hsound : Sound ba res)
    (hpending : ∀ et, ba.endTxn? = some et → et.commit = true → tc.status = .pending)
    (h : tc.receive st ri ba res = .ok tc') :
    ∃ tp, tc.pipeliner.updateLockTracking st ri ba res = .ok tp ∧ tc'.active = tc.active ∧
      (Quiet { tc with pipeliner := tp } tc' ∧
          (tc'.status ≠ .committed → ∀ br, res = .ok br → br.status ≠ .committed) ∨
        NewEpoch tc tp tc' ∧ ∃ err, res = .error err) := by
  obtain ⟨tp, htp, rfl⟩ := Lib.map_eq_ok.mp h
  refine ⟨tp, htp, ?_⟩
  cases res with
  | ok br =>
    -- a commit is the answer to an `EndTxn`
    have hcommit : br.status = .committed → finalizes ba (.ok br) = true ∧
        forwardStatus tc.status br.status = .committed := by
      intro hc
      obtain ⟨et, het, hcommit⟩ := hsound.committed br rfl hc
      rw [hc, hpending et het hcommit]
      unfold finalizes
      rw [het]
      exact ⟨Bool.or_true _, rfl⟩
    split_ifs with hf
    · refine ⟨rfl, .inl ⟨⟨rfl, rfl, .refl _, .refl, id, fun _ => hs, fun _ _ => rfl⟩, ?_⟩⟩
      rintro hne br' heq hc
      cases heq
      exact hne (hcommit hc).2
    · refine ⟨rfl, .inl ⟨⟨rfl, rfl, .refl _, .refl, id, fun _ => hs, fun _ hc => ?_⟩, ?_⟩⟩
      · exact absurd (hcommit (forwardStatus_eq_committed hs hc)).1 hf
      · rintro - br' heq hc
        cases heq
        exact hf (hcommit hc).1
  | error err =>
    obtain ⟨hactive, hstatus, hcases⟩ :=
      @updateStateLocked_error { tc with pipeliner := tp } (TxnPipeliner.adjustError ba err) hs
    have hno : ∀ br, (Except.error err : Result) = .ok br → br.status ≠ .committed := by
      intro br heq
      cases heq
    split
    · refine ⟨hactive, hcases.imp (fun hq => ⟨hq.finalize, fun _ => hno⟩) fun hn => ?_⟩
      exact ⟨{ hn with }, err, rfl⟩
    · refine ⟨hactive, hcases.imp (fun hq => ⟨hq, fun _ => hno⟩) fun hn => ?_⟩
      exact ⟨hn.of_eq rfl rfl, err, rfl⟩

/-- A batch is sent and its result received, with `tp` the pipeliner that has the result. -/
theorem send_receive {tc₁ : TxnCoordSender} {ri : RangeIterator} {res : Result}
    (hv : tc.pipeliner.Valid) (hsend : tc.send st requests = (tc₁, .sent ba))
    (hsound : Sound ba res) (h : tc₁.receive st ri ba res = .ok tc') :
    ∃ tp, Quiet tc tc₁ ∧ tc.status ≠ .committed ∧ tc₁.pipeliner.Valid ∧
      tc₁.pipeliner.updateLockTracking st ri ba res = .ok tp ∧ tp.Valid ∧ tc'.active = true ∧
      (Quiet { tc₁ with pipeliner := tp } tc' ∧
          (tc'.status = .committed → tc'.txnState = .finalized) ∧
          (tc'.status ≠ .committed → ∀ br, res = .ok br → br.status ≠ .committed) ∨
        NewEpoch tc tp tc' ∧ ∃ err, res = .error err) := by
  have hq := send_quiet hsend
  obtain ⟨hstatus, hne, hpending, -⟩ := send_sent hsend
  have hv₁ := (hq.keeps hv.footprint).validAll hv
  obtain ⟨tp, htp, hact, hcases⟩ := receive_cases (hstatus ▸ hne) hsound
    (fun et het hc => hstatus.trans (hpending et het hc)) h
  refine ⟨tp, hq, hne, hv₁, htp, hv₁.updateLockTracking hsound htp,
    hact.trans (send_cases hsend).1, ?_⟩
  rcases hcases with ⟨hq', hok⟩ | ⟨hn, herr⟩
  · exact .inl ⟨hq', hq'.committed fun hc => absurd (hstatus ▸ hc) hne, hok⟩
  · exact .inr ⟨hn.of_eq hq.epoch hstatus, herr⟩

/-! ## Savepoints and stepping -/

theorem quiet_step (tc : TxnCoordSender) : Quiet tc tc.step := by
  unfold step manualStepReadSeqLocked
  split
  · rename_i seqNums h
    split_ifs at h
    obtain ⟨hw, hr⟩ := stepReadSeqLocked_spec h
    exact ⟨rfl, rfl, ⟨hw.ge, fun _ => (hr.trans hw.symm).le⟩, .refl, id, id, id⟩
  · exact .refl tc

theorem quiet_configureStepping (tc : TxnCoordSender) (mode : Bool) :
    Quiet tc (tc.configureStepping mode) := by
  refine ⟨rfl, rfl, ⟨le_rfl, fun h => ?_⟩, .refl, id, id, id⟩
  show (if !tc.seqNums.steppingMode && mode then tc.seqNums.writeSeq else tc.seqNums.readSeq) ≤
    tc.seqNums.writeSeq
  split_ifs
  · exact le_rfl
  · exact h

theorem quiet_clearRetryableErr (tc : TxnCoordSender) : Quiet tc tc.clearRetryableErr := by
  unfold clearRetryableErr
  split_ifs with h
  · refine ⟨rfl, rfl, .refl _, .refl, id, id, fun hfin hc => ?_⟩
    rw [hfin hc] at h
    cases h.1
  · exact .refl tc

/-- The write sequence number is stepped iff there are locks. -/
theorem stepIfLocked_eq_ok (h : tc.stepIfLocked = .ok tc') :
    tc' = { tc with seqNums := tc'.seqNums } ∧ tc.seqNums.Advances tc'.seqNums ∧
      tc'.seqNums.writeSeq =
        tc.seqNums.writeSeq + if tc.pipeliner.hasAcquiredLocks then 1 else 0 := by
  unfold stepIfLocked at h
  split_ifs at h ⊢ with hl
  · split at h
    · rename_i seqNums hstep
      cases h
      exact ⟨rfl, stepWriteSeqLocked_advances hstep, (stepWriteSeqLocked_spec hstep).1⟩
    · cases h
  · cases h
    exact ⟨rfl, .refl _, rfl⟩

theorem stepIfLocked_quiet (h : tc.stepIfLocked = .ok tc') : Quiet tc tc' := by
  obtain ⟨htc, hadv, -⟩ := stepIfLocked_eq_ok h
  rw [htc]
  exact ⟨rfl, rfl, hadv, .refl, id, id, id⟩

/-- A savepoint before any activity, or one of the write sequence number. -/
theorem createSavepoint_eq_ok {sp : Savepoint} (h : tc.createSavepoint = .ok (sp, tc')) :
    tc.txnState ≠ .finalized ∧ Quiet tc tc' ∧ (sp.initial = true → sp.seqNum = 0) ∧
      (tc.active = false ∧ sp = {} ∧ tc' = tc ∨
        tc.active = true ∧ sp.seqNum =
            tc.seqNums.writeSeq + (if tc.pipeliner.hasAcquiredLocks then 1 else 0) ∧
          sp.seqNum = tc'.seqNums.writeSeq) := by
  unfold createSavepoint at h
  split_ifs at h with hfin hpend hact
  · obtain ⟨rfl, rfl⟩ := Prod.mk.inj (Except.ok.inj h)
    exact ⟨hfin, .refl _, fun _ => rfl, .inl ⟨by simpa using hact, rfl, rfl⟩⟩
  · obtain ⟨tc₁, h₁, heq⟩ := Lib.map_eq_ok.mp h
    cases heq
    exact ⟨hfin, stepIfLocked_quiet h₁, nofun, .inr ⟨by simpa using hact,
      (stepIfLocked_eq_ok h₁).2.2, rfl⟩⟩

/-- A rollback: what was written since the savepoint is ignored iff there are locks. -/
theorem rollbackToSavepoint_eq_ok {sp : Savepoint} (h : tc.rollbackToSavepoint sp = .ok tc') :
    tc.txnState ≠ .finalized ∧ (sp.initial = true ∨ sp.seqNum ≤ tc.seqNums.writeSeq) ∧
      tc'.pipeliner = tc.pipeliner.rollbackToSavepointLocked sp ∧ tc'.active = sp.active ∧
      tc'.status = tc.status ∧ tc'.txnState = tc.txnState ∧
      tc.seqNums.Advances tc'.seqNums ∧
      if tc'.pipeliner.hasAcquiredLocks then
        tc'.ignoredSeqNums =
            addIgnoredSeqNumRange tc.ignoredSeqNums ⟨sp.seqNum, tc.seqNums.writeSeq⟩ ∧
          tc'.seqNums.writeSeq = tc.seqNums.writeSeq + 1
      else
        tc'.ignoredSeqNums = tc.ignoredSeqNums ∧ tc'.seqNums.writeSeq = tc.seqNums.writeSeq := by
  unfold rollbackToSavepoint at h
  split_ifs at h with hfin herr
  split at h
  · cases h
  rename_i hcheck
  have hseq : sp.initial = true ∨ sp.seqNum ≤ tc.seqNums.writeSeq := by
    unfold checkSavepointLocked at hcheck
    split_ifs at hcheck with hi he hw
    · exact .inl hi
    · exact .inr (not_lt.mp hw)
  obtain ⟨htc, hadv, hw⟩ := stepIfLocked_eq_ok h
  unfold ignoreSince at htc hadv hw
  refine ⟨hfin, hseq, ?_⟩
  split_ifs at htc hadv hw with hl
  · rw [htc]
    exact ⟨rfl, rfl, rfl, rfl, hadv, by rw [if_pos hl]; exact ⟨rfl, hw⟩⟩
  · rw [htc]
    exact ⟨rfl, rfl, rfl, rfl, hadv, by rw [if_neg hl]; exact ⟨rfl, hw⟩⟩

end TxnCoordSender

end Cockroach.KvCoord
