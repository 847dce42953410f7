import Cockroach.KvCoord.Sending

/-!
# The lock footprint

A run of a coordinator with the keys on which its requests have left locks. A batch is
divided among ranges, so that a request that fails on one range may have left locks on
others; an unambiguous error only speaks for the range that it comes from.

`updateLockTrackingInner` drops the request of such an error as a whole. In runs where no
request fails on one range after it has left locks on another (`Whole`) every lock is tracked
until the transaction is known to be committed, and what is attached to an `EndTxn` covers all
of them (`locks_covered`). A request that is divided loses its locks (`divided_lock_lost`).
-/

namespace Cockroach.KvCoord

open Kvpb Roachpb Storage TxnCoordSender BatchRequest
open List hiding getElem?_eq_some_iff

/-! ## Where a request has left locks -/

/-- What is left to do of a request: all of it, or one end of a ranged request. -/
def Resumes (h : RequestHeader) (resume : Span) : Prop :=
  resume = h.span ∨
    h.endKey ≠ [] ∧ resume.endKey ≠ [] ∧ (resume.key = h.key ∨ resume.endKey = h.endKey)

/-- The keys on which the requests of a batch have left locks, by the index of the request.
`rangeOf` divides the keys among ranges and `failed` is the range that an error comes from. -/
structure Leaves (rangeOf : Key → Nat) (failed : Nat) (ba : BatchRequest) (res : Result)
    (left : List (Nat × Key)) : Prop where
  /-- locks lie inside the span of the request -/
  inside : ∀ i k, (i, k) ∈ left →
    ∃ req, ba.requests[i]? = some req ∧ req.isLocking = true ∧ k ∈ req.header.span
  /-- or on the returned keys, if the response enumerates them -/
  returned : ∀ br, res = .ok br → ∀ i k, (i, k) ∈ left → ∀ req resp,
    ba.requests[i]? = some req → br.responses[i]? = some resp →
      canIterateResponseKeys req = true → k ∈ responseKeys req resp
  /-- and not on what is left to do -/
  resumed : ∀ br, res = .ok br → ∀ i k, (i, k) ∈ left → ∀ req resp resume,
    ba.requests[i]? = some req → br.responses[i]? = some resp → resp.resumeSpan = some resume →
      Resumes req.header resume ∧ k ∉ resume
  /-- an unambiguous error speaks for the range that it comes from -/
  unambiguous : ∀ err i, res = .error err → err.detail.isUnambiguous = true →
    err.index = some i → ∀ k, (i, k) ∈ left → rangeOf k ≠ failed

/-- A request that fails unambiguously has left no lock on any range. -/
def Whole (res : Result) (left : List (Nat × Key)) : Prop :=
  ∀ err i, res = .error err → err.detail.isUnambiguous = true → err.index = some i →
    ∀ k, (i, k) ∉ left

variable {req : Request}

theorem mem_actualSpan {resp : Response} {k : Key} (hk : k ∈ req.header.span)
    (hresume : ∀ resume, resp.resumeSpan = some resume →
      Resumes req.header resume ∧ k ∉ resume) :
    ∃ sp, actualSpan req (some resp) = some sp ∧ k ∈ sp := by
  unfold actualSpan
  dsimp only [Option.bind_some]
  cases hr : resp.resumeSpan with
  | none => exact ⟨_, rfl, hk⟩
  | some resume =>
    obtain ⟨hres, hnot⟩ := hresume resume hr
    dsimp only
    have hne : resume ≠ req.header.span := by
      rintro rfl
      exact hnot hk
    obtain ⟨hend, hrend, hside⟩ := hres.resolve_left hne
    obtain ⟨hle, hlt⟩ := (Span.mem_range hend).mp hk
    have hnot : ¬ (resume.key ≤ k ∧ k < resume.endKey) :=
      fun h => hnot ((Span.mem_range hrend).mpr h)
    split_ifs with hkey hendKey
    · exact absurd (Span.ext hkey hendKey) hne
    · refine ⟨_, rfl, (Span.mem_range hend).mpr ⟨?_, hlt⟩⟩
      exact not_lt.mp fun h => hnot ⟨hkey ▸ hle, h⟩
    · have hendKey := hside.resolve_left hkey
      have hk' : k < resume.key := not_le.mp fun h => hnot ⟨h, hendKey ▸ hlt⟩
      have hne : resume.key ≠ [] := fun h => not_lt_nil _ (h ▸ hk')
      exact ⟨_, rfl, (Span.mem_range hne).mpr ⟨hle, hk'⟩⟩

/-- `LockSpanIterate` passes on every lock of a request that has succeeded. -/
theorem mem_lockSpanIterate {resp : Response} {k : Key}
    (hl : req.isLocking = true) (hk : k ∈ req.header.span)
    (hreturned : canIterateResponseKeys req = true → k ∈ responseKeys req resp)
    (hresume : ∀ resume, resp.resumeSpan = some resume →
      Resumes req.header resume ∧ k ∉ resume) :
    ∃ sp ∈ lockSpanIterate req (some resp), k ∈ sp := by
  unfold lockSpanIterate
  rw [if_neg (by rw [hl]; decide)]
  split_ifs with hi
  · exact ⟨⟨k, []⟩, mem_map.mpr ⟨k, hreturned hi, rfl⟩, Span.mem_mk_nil.mpr rfl⟩
  · obtain ⟨sp, hsp, hk⟩ := mem_actualSpan hk hresume
    rw [hsp]
    exact ⟨sp, mem_singleton_self _, hk⟩

variable {ba : BatchRequest}

namespace TxnPipeliner

variable {tp tp' : TxnPipeliner} {k : Key}

theorem mem_strippedRequests {err : Error} {i : Nat} (hreq : ba.requests[i]? = some req)
    (hi : err.detail.isUnambiguous = true → err.index ≠ some i) :
    req ∈ strippedRequests ba err := by
  unfold strippedRequests
  split
  · rename_i j hj
    split_ifs with hu
    · have hne : j ≠ i := fun h => hi hu (h ▸ hj)
      exact mem_eraseIdx_iff_getElem?.mpr ⟨i, hne.symm, hreq⟩
    · exact mem_of_getElem? hreq
  · exact mem_of_getElem? hreq

variable {st : Settings} {et : EndTxn} {requests : List Request}

/-- The locks that a batch has left are tracked, unless its request has failed on one range
and not on another. -/
theorem Valid.covers_left {rangeOf : Key → Nat} {failed : Nat}
    {res : Result} {left : List (Nat × Key)} {ri : RangeIterator} {i : Nat}
    (hv : tp.Valid) (hs : Sound ba res) (hleft : Leaves rangeOf failed ba res left)
    (hwhole : Whole res left) (hc : ∀ br, res = .ok br → br.status ≠ .committed)
    (h : tp.updateLockTracking st ri ba res = .ok tp') (hk : (i, k) ∈ left) : tp'.Covers k := by
  obtain ⟨tp₁, h₁, rfl⟩ := Lib.map_eq_ok.mp h
  refine covers_condense (hv.updateLockTrackingInner hs h₁) st ri ?_
  obtain ⟨req, hreq, hl, hspan⟩ := hleft.inside i k hk
  have hlocks : ∀ requests : List Request, req ∈ requests →
      (tp.lockFootprint.insertPlain (lockSpans requests)).Covers k := fun requests hmem =>
    CondensableSpanSet.covers_insertPlain.mpr
      (.inr ⟨req.header.span, mem_lockSpans.mpr ⟨req, hmem, hl, rfl⟩, hspan⟩)
  cases updateLockTrackingInner_updates h₁ with
  | error err =>
    refine .inr (hlocks _ (mem_strippedRequests hreq fun hu hi => ?_))
    exact hwhole err i rfl hu hi k hk
  | aborted => exact .inr (hlocks _ (mem_of_getElem? hreq))
  | committed br hst => exact absurd hst (hc br rfl)
  | responses br hst h =>
    have hi : i < br.responses.length := by
      rw [hs.length br rfl]
      exact (List.getElem?_eq_some_iff.mp hreq).1
    have hresp : br.responses[i]? = some br.responses[i] := getElem?_eq_getElem hi
    obtain ⟨sp, hsp, hksp⟩ := mem_lockSpanIterate hl hspan
      (hleft.returned br rfl i k hk req _ hreq hresp)
      (fun resume => hleft.resumed br rfl i k hk req _ resume hreq hresp)
    have hzip : (req, br.responses[i]) ∈ ba.requests.zip br.responses :=
      mem_of_getElem? (getElem?_zip_eq_some.mpr ⟨hreq, hresp⟩)
    exact (foldlM_trackResponse hv hs.responses h).2.2 _ hzip hl sp hsp k hksp

/-! ## What is attached to an `EndTxn` -/

/-- The keys that an `EndTxn` tells to be locked. -/
def EndTxnCovers (et : EndTxn) (k : Key) : Prop :=
  (∃ w ∈ et.inFlightWrites, w.key = k) ∨ Roachpb.Covers et.lockSpans k

theorem endTxnCovers_augment (haddr : req.isLocking = true → Addressed req.header req.isRange) :
    EndTxnCovers (augment et req) k ↔
      EndTxnCovers et k ∨ req.isLocking = true ∧ k ∈ req.header.span := by
  unfold augment
  split_ifs with hl hw
  · have hend : req.header.endKey = [] := by
      refine (haddr hl).2 ?_
      rw [Bool.and_eq_true, Bool.not_eq_true'] at hw
      exact hw.2
    have hmem : k ∈ req.header.span ↔ req.header.key = k :=
      (Span.mem_point hend).trans eq_comm
    unfold EndTxnCovers
    simp only [mem_append, mem_singleton, or_and_right, exists_or, exists_eq_left, hl,
      true_and, hmem]
    exact or_right_comm
  · have hmem : Roachpb.Covers [req.header.span] k ↔ k ∈ req.header.span := by
      simp [Roachpb.Covers]
    unfold EndTxnCovers
    simp only [covers_append, hl, true_and, hmem, or_assoc]
  · simp [hl]

section

variable (haddr : ∀ req ∈ requests, req.isLocking = true → Addressed req.header req.isRange)
include haddr

theorem endTxnCovers_foldl : EndTxnCovers (requests.foldl augment et) k ↔
      EndTxnCovers et k ∨ ∃ req ∈ requests, req.isLocking = true ∧ k ∈ req.header.span := by
  induction requests generalizing et with
  | nil => simp
  | cons req requests ih =>
    rw [foldl_cons, ih fun r hr => haddr r (mem_cons_of_mem _ hr),
      endTxnCovers_augment (haddr req mem_cons_self), exists_mem_cons_iff, or_assoc]

theorem lockSpans_foldl_valid (het : ∀ sp ∈ et.lockSpans, sp.Valid) :
    ∀ sp ∈ (requests.foldl augment et).lockSpans, sp.Valid := by
  induction requests generalizing et with
  | nil => exact het
  | cons req requests ih =>
    refine ih (fun r hr => haddr r (mem_cons_of_mem _ hr)) fun sp hsp => ?_
    unfold augment at hsp
    split_ifs at hsp with hl
    · exact het sp hsp
    · rcases mem_append.mp hsp with hsp | hsp
      · exact het sp hsp
      · rw [mem_singleton.mp hsp]
        exact (haddr req mem_cons_self hl).1
    · exact het sp hsp

/-- An `EndTxn` takes along all that is tracked and all that its own batch locks. -/
theorem Valid.endTxnCovers_attached (hv : tp.Valid) : EndTxnCovers (attached tp et requests) k ↔
      tp.Covers k ∨ ∃ req ∈ requests, req.isLocking = true ∧ k ∈ req.header.span := by
  let et₀ : EndTxn := { et with
    lockSpans := tp.lockFootprint.asSlice
    inFlightWrites := tp.ifWrites.map InFlightWrite.write }
  have hvalid : ∀ sp ∈ et₀.lockSpans, sp.Valid :=
    forall_mem_map.mpr fun sp hsp => (hv.footprint sp hsp).1
  have hspans := covers_mergePlain (lockSpans_foldl_valid haddr hvalid) k
  have hstart : EndTxnCovers et₀ k ↔ tp.Covers k := by
    unfold EndTxnCovers Covers
    simp only [inFlight_iff_mem_map]
    exact Iff.rfl
  rw [← hstart, ← endTxnCovers_foldl haddr]
  show ((∃ w ∈ (requests.foldl augment et₀).inFlightWrites.insertionSort _, w.key = k) ∨
    Roachpb.Covers (mergePlain (requests.foldl augment et₀).lockSpans) k) ↔ _
  rw [hspans]
  simp only [mem_insertionSort]
  exact Iff.rfl

end

/-- The last request of a batch is still the last one once it is chained. -/
theorem getLast?_foldl_chainRequest (ignored : List IgnoredSeqNumRange) (n : Nat) (c : Chaining)
    (requests : List Request) :
    (requests.foldl (chainRequest ignored n) c).requests.getLast? =
      requests.getLast?.or c.requests.getLast? := by
  induction requests generalizing c with
  | nil => rfl
  | cons req requests ih =>
    have hlast : (chainRequest ignored n c req).requests.getLast? = some req := by
      unfold chainRequest
      split_ifs
      · exact getLast?_concat
      · exact getLast?_concat
    rw [foldl_cons, ih, hlast, getLast?_cons]
    cases requests.getLast? <;> rfl

theorem getLast?_asyncLoop (st : Settings) (requests : List Request) (n : Int) :
    (asyncLoop tp st requests n).1.getLast? = requests.getLast? ∨
      (asyncLoop tp st requests n).1.getLast? = requests.getLast?.map returningKeys := by
  induction requests generalizing n with
  | nil => exact .inl rfl
  | cons req rest ih =>
    have hcons : ∀ rest' : List Request, rest'.getLast? = rest.getLast? ∨
        rest'.getLast? = rest.getLast?.map returningKeys →
        (returningKeys req :: rest').getLast? = (req :: rest).getLast? ∨
          (returningKeys req :: rest').getLast? = (req :: rest).getLast?.map returningKeys := by
      intro rest' hrest
      rw [getLast?_cons, getLast?_cons]
      rcases hrest with hrest | hrest
      · rw [hrest]
        cases rest.getLast? with
        | none => exact .inr rfl
        | some last => exact .inl rfl
      · rw [hrest]
        cases rest.getLast? with
        | none | some => exact .inr rfl
    unfold asyncLoop
    dsimp only
    split_ifs
    · exact hcons rest (.inl rfl)
    · exact hcons rest (.inl rfl)
    · exact hcons rest (.inl rfl)
    · exact hcons rest (.inl rfl)
    · exact hcons _ (ih _)

theorem endTxn?_of_returningKeys {requests requests' : List Request} {a b : Bool}
    (h : requests'.getLast? = requests.getLast?.map returningKeys) :
    endTxn? ⟨requests', a⟩ = endTxn? ⟨requests, b⟩ := by
  unfold endTxn?
  rw [h]
  cases requests.getLast? with
  | none => rfl
  | some req => cases req <;> rfl

/-- The `EndTxn` of a batch leaves the pipeliner as it was attached. -/
theorem endTxn?_pipeline (st : Settings) (ignored : List IgnoredSeqNumRange) (ba : BatchRequest) :
    (tp.pipeline st ignored ba).2.endTxn? = ba.endTxn? := by
  have hasync : ∀ async, endTxn? ⟨(canUseAsyncConsensus tp st ba).1, async⟩ = ba.endTxn? := by
    intro async
    unfold canUseAsyncConsensus
    split_ifs
    · rfl
    · rfl
    · rfl
    · rcases @getLast?_asyncLoop tp st ba.requests 0 with h | h
      · unfold endTxn?
        rw [h]
      · exact endTxn?_of_returningKeys h
  unfold pipeline chainToInFlightWrites
  split_ifs
  · exact hasync _
  · rw [← hasync (canUseAsyncConsensus tp st ba).2]
    unfold endTxn?
    rw [getLast?_foldl_chainRequest]
    cases (canUseAsyncConsensus tp st ba).1.getLast? <;> rfl

/-- What was attached to the `EndTxn` of a batch that is sent. -/
theorem endTxn?_prepare {ignored : List IgnoredSeqNumRange}
    {ba ba' : BatchRequest} (h : tp.prepare st ignored ba = (tp', .ok ba'))
    (het : ba'.endTxn? = some et) :
    ∃ hd et₀, ba.requests = ba.requests.dropLast ++ [.endTxn hd et₀] ∧
      et = attached tp et₀ ba.requests.dropLast := by
  obtain ⟨ba₁, ha, rfl⟩ := prepare_eq_ok h
  rw [endTxn?_pipeline] at het
  unfold attachLocksToEndTxn at ha
  split at ha
  · rename_i hd et₀ hlast
    split_ifs at ha
    cases ha
    refine ⟨hd, et₀, (dropLast_append_getLast? _ hlast).symm, ?_⟩
    unfold endTxn? at het
    rw [getLast?_concat] at het
    exact (Option.some.inj het).symm
  · rename_i hlast
    cases ha
    unfold endTxn? at het
    split at het
    · rename_i hd args hlast'
      exact absurd hlast' (hlast hd args)
    · cases het

/-- What the `EndTxn` of a batch that is sent takes along. -/
theorem Valid.endTxnCovers_prepare {ignored : List IgnoredSeqNumRange}
    {ba ba' : BatchRequest} (hv : tp.Valid)
    (haddr : ∀ req ∈ ba.requests, req.isLocking = true → Addressed req.header req.isRange)
    (h : tp.prepare st ignored ba = (tp', .ok ba')) (het : ba'.endTxn? = some et) :
    EndTxnCovers et k ↔
      tp.Covers k ∨ ∃ req ∈ ba.requests, req.isLocking = true ∧ k ∈ req.header.span := by
  obtain ⟨hd, et₀, hsplit, rfl⟩ := endTxn?_prepare h het
  rw [hv.endTxnCovers_attached fun req hreq => haddr req (mem_of_mem_dropLast hreq)]
  refine or_congr_right ⟨?_, ?_⟩
  · rintro ⟨req, hreq, hrest⟩
    exact ⟨req, mem_of_mem_dropLast hreq, hrest⟩
  · rintro ⟨req, hreq, hl, hk⟩
    rw [hsplit] at hreq
    rcases mem_append.mp hreq with hreq | hreq
    · exact ⟨req, hreq, hl, hk⟩
    · rw [mem_singleton.mp hreq] at hl
      cases hl

/-- All in-flight writes are in flight for the `EndTxn`. -/
theorem mem_inFlightWrites_attached {w : SequencedWrite}
    (hw : tp.InFlight w) : w ∈ (attached tp et requests).inFlightWrites := by
  have hfold : ∀ et : EndTxn, w ∈ et.inFlightWrites →
      w ∈ (requests.foldl augment et).inFlightWrites := by
    induction requests with
    | nil => exact fun _ h => h
    | cons req requests ih =>
      intro et h
      refine ih _ ?_
      unfold augment
      split_ifs
      · exact mem_append_left _ h
      · exact h
      · exact h
  refine (mem_insertionSort _).mpr (hfold _ ?_)
  exact inFlight_iff_mem_map.mp hw

end TxnPipeliner

/-! ## Runs -/

/-- A coordinator with the savepoints that it has created and the keys on which its requests
have left locks, in any epoch. -/
structure LockRun where
  tc : TxnCoordSender
  savepoints : List Savepoint := []
  locks : List Key := []

namespace LockRun

variable {ok : Result → List (Nat × Key) → Prop} {r r' : LockRun}

/-- One step of a run whose batches leave locks that meet the condition `ok`. -/
inductive Step (ok : Result → List (Nat × Key) → Prop) (r : LockRun) : LockRun → Prop
  | createSavepoint {sp : Savepoint} {tc : TxnCoordSender}
      (h : r.tc.createSavepoint = .ok (sp, tc)) :
      Step ok r { r with tc, savepoints := sp :: r.savepoints }
  | rollbackToSavepoint {sp : Savepoint} {tc : TxnCoordSender} (hsp : sp ∈ r.savepoints)
      (h : r.tc.rollbackToSavepoint sp = .ok tc) : Step ok r { r with tc }
  | unsent {st : Settings} {requests : List Request} {tc : TxnCoordSender} {s : Sent}
      (h : r.tc.send st requests = (tc, s)) (hs : ∀ ba, s ≠ .sent ba) : Step ok r { r with tc }
  | batch {st : Settings} {requests : List Request} {tc tc' : TxnCoordSender}
      {ba : BatchRequest} {ri : RangeIterator} {res : Result} {rangeOf : Key → Nat}
      {failed : Nat} {left : List (Nat × Key)} (hsend : r.tc.send st requests = (tc, .sent ba))
      (hsound : Sound ba res) (hleft : Leaves rangeOf failed ba res left) (hok : ok res left)
      (hreceive : tc.receive st ri ba res = .ok tc') :
      Step ok r { r with tc := tc', locks := r.locks ++ left.map Prod.snd }
  | step : Step ok r { r with tc := r.tc.step }
  | configureStepping (mode : Bool) : Step ok r { r with tc := r.tc.configureStepping mode }
  | clearRetryableErr : Step ok r { r with tc := r.tc.clearRetryableErr }

/-- The runs of a new transaction. -/
inductive Reachable (ok : Result → List (Nat × Key) → Prop) : LockRun → Prop
  | start (steppingMode perStatementReadSnapshot : Bool) :
      Reachable ok { tc := { seqNums := { steppingMode }, perStatementReadSnapshot } }
  | step {r r' : LockRun} (h : Reachable ok r) (hstep : r.Step ok r') : Reachable ok r'

/-- What holds after every step. -/
structure Inv (r : LockRun) : Prop where
  valid : r.tc.pipeliner.Valid
  initial : ∀ sp ∈ r.savepoints, sp.initial = true → sp.seqNum = 0
  finalized : r.tc.status = .committed → r.tc.txnState = .finalized
  covered : r.tc.status ≠ .committed → ∀ k ∈ r.locks, r.tc.pipeliner.Covers k

variable {tc : TxnCoordSender}

section

variable (hi : r.Inv)
include hi

theorem Inv.quiet (hq : r.tc.Quiet tc) : Inv { r with tc } := by
  have hk := hq.keeps hi.valid.footprint
  exact ⟨hk.validAll hi.valid, hi.initial, hq.committed hi.finalized,
    fun hs k hkl => hk.coversAll.mpr (hi.covered (hq.status hs) k hkl)⟩

/-- A new epoch, once the pipeliner is `tp`. -/
theorem Inv.newEpoch {tp : TxnPipeliner} {locks : List Key}
    (hs : r.tc.status ≠ .committed) (hv : tp.Valid) (hn : r.tc.NewEpoch tp tc)
    (hcov : ∀ k ∈ locks, tp.Covers k) : Inv { r with tc, locks } := by
  obtain ⟨hv', -, hcov'⟩ := hv.epochBumpedLocked
  refine ⟨hn.pipeliner ▸ hv', hi.initial, fun hc => absurd (hn.status ▸ hc) hs, fun _ k hk => ?_⟩
  show tc.pipeliner.Covers k
  rw [hn.pipeliner, hcov']
  exact hcov k hk

theorem Inv.createSavepoint {sp : Savepoint}
    (h : r.tc.createSavepoint = .ok (sp, tc)) :
    Inv { r with tc, savepoints := sp :: r.savepoints } := by
  obtain ⟨-, hq, hinit, -⟩ := createSavepoint_eq_ok h
  have hi' := hi.quiet hq
  refine ⟨hi'.valid, fun sp' hsp' => ?_, hi'.finalized, hi'.covered⟩
  rcases mem_cons.mp hsp' with rfl | hsp'
  · exact hinit
  · exact hi.initial sp' hsp'

theorem Inv.rollbackToSavepoint {sp : Savepoint}
    (hsp : sp ∈ r.savepoints) (h : r.tc.rollbackToSavepoint sp = .ok tc) :
    Inv { r with tc } := by
  obtain ⟨hfin, -, hpipe, -, hstatus, -⟩ := rollbackToSavepoint_eq_ok h
  have hne : r.tc.status ≠ .committed := fun hc => hfin (hi.finalized hc)
  have hinit := hi.initial sp hsp
  refine ⟨hpipe ▸ hi.valid.rollbackToSavepointLocked hinit, hi.initial,
    fun hc => absurd (hstatus ▸ hc) hne, fun _ k hk => ?_⟩
  show tc.pipeliner.Covers k
  rw [hpipe]
  exact hi.valid.coversAll_rollbackToSavepointLocked hinit (hi.covered hne k hk)

theorem Inv.batch {st : Settings} {requests : List Request} {tc tc' : TxnCoordSender}
    {ri : RangeIterator} {res : Result} {rangeOf : Key → Nat}
    {failed : Nat} {left : List (Nat × Key)}
    (hsend : r.tc.send st requests = (tc, .sent ba)) (hsound : Sound ba res)
    (hleft : Leaves rangeOf failed ba res left) (hwhole : Whole res left)
    (hreceive : tc.receive st ri ba res = .ok tc') :
    Inv { r with tc := tc', locks := r.locks ++ left.map Prod.snd } := by
  obtain ⟨tp, hq, hne, hv, htp, hvtp, -, hcases⟩ :=
    send_receive hi.valid hsend hsound hreceive
  have hk := hq.keeps hi.valid.footprint
  -- what was tracked still is, and what the batch has locked is now
  have hcov : (∀ br, res = .ok br → br.status ≠ .committed) →
      ∀ k ∈ r.locks ++ left.map Prod.snd, tp.Covers k := by
    intro hc k hkl
    rcases mem_append.mp hkl with hkl | hkl
    · have hold := hk.coversAll.mpr (hi.covered hne k hkl)
      exact hv.covers_updateLockTracking hsound hc htp hold
    · obtain ⟨⟨i, k'⟩, hik, rfl⟩ := mem_map.mp hkl
      exact hv.covers_left hsound hleft hwhole hc htp hik
  rcases hcases with ⟨hq', hfin, hok⟩ | ⟨hn, err, rfl⟩
  · have hk' := hq'.keeps hvtp.footprint
    exact ⟨hk'.validAll hvtp, hi.initial, hfin,
      fun hs k hkl => hk'.coversAll.mpr (hcov (hok hs) k hkl)⟩
  · refine hi.newEpoch hne hvtp hn (hcov fun br hbr => ?_)
    cases hbr

theorem Inv.step (h : r.Step Whole r') : r'.Inv := by
  cases h with
  | createSavepoint h => exact hi.createSavepoint h
  | rollbackToSavepoint hsp h => exact hi.rollbackToSavepoint hsp h
  | unsent h hs =>
    obtain ⟨-, hq | ⟨hne, hn, -⟩⟩ := send_cases h
    · exact hi.quiet hq
    · exact hi.newEpoch hne hi.valid hn (hi.covered hne)
  | batch hsend hsound hleft hok hreceive => exact hi.batch hsend hsound hleft hok hreceive
  | step => exact hi.quiet (quiet_step _)
  | configureStepping mode => exact hi.quiet (quiet_configureStepping _ mode)
  | clearRetryableErr => exact hi.quiet (quiet_clearRetryableErr _)

end

theorem Reachable.inv (h : Reachable Whole r) : r.Inv := by
  induction h with
  | start steppingMode perStatementReadSnapshot =>
    refine ⟨⟨by simp [CondensableSpanSet.Valid], ?_⟩, by simp, fun hc => ?_, by simp⟩
    · rintro w ⟨x, hx, -⟩
      exact absurd hx not_mem_nil
    · cases hc
  | step _ hstep ih => exact ih.step hstep

/-- In every run where a request that fails unambiguously has left no lock on another range,
every lock is tracked until the transaction is known to be committed, and what an `EndTxn`
takes along covers all locks, those of its own batch included. -/
theorem locks_covered (h : Reachable Whole r) (hs : r.tc.status ≠ .committed) :
    (∀ k ∈ r.locks, r.tc.pipeliner.Covers k) ∧
    ∀ st requests tc ba et, r.tc.send st requests = (tc, .sent ba) →
      (∀ req ∈ requests, req.isLocking = true → Addressed req.header req.isRange) →
      ba.endTxn? = some et →
        (∀ k ∈ r.locks, TxnPipeliner.EndTxnCovers et k) ∧
        ∀ req ∈ requests, req.isLocking = true → ∀ k ∈ req.header.span,
          TxnPipeliner.EndTxnCovers et k := by
  have hi := h.inv
  refine ⟨hi.covered hs, fun st requests tc ba et hsend haddr het => ?_⟩
  obtain ⟨-, hsend⟩ := send_eq_sent hsend
  obtain ⟨seqNums, requests', hseq, hprep, -⟩ := sendToInterceptors_sent hsend
  have haddr' : ∀ req ∈ requests', req.isLocking = true → Addressed req.header req.isRange := by
    intro req' hreq' hl
    obtain ⟨req, hreq, seq, rfl⟩ := (TxnSeqNumAllocator.mem_assign hseq).1 req' hreq'
    have := haddr req hreq
    cases req <;> exact this hl
  have hcov := fun k => hi.valid.endTxnCovers_prepare haddr' hprep het (k := k)
  refine ⟨fun k hk => (hcov k).mpr (.inl (hi.covered hs k hk)), fun req hreq hl k hk => ?_⟩
  obtain ⟨seq, hmem⟩ := (TxnSeqNumAllocator.mem_assign hseq).2 req hreq
  refine (hcov k).mpr (.inr ⟨_, hmem, ?_, ?_⟩)
  · cases req <;> exact hl
  · cases req <;> exact hk

theorem sound_error {ba : BatchRequest} {err : Error}
    (haddr : ∀ req ∈ ba.requests, Addressed req.header req.isRange) : Sound ba (.error err) :=
  ⟨fun req hreq _ => haddr req hreq, (fun _ h => by cases h), (fun _ h => by cases h),
    (fun _ h => by cases h)⟩

/-- A first batch puts a key. Of the two puts of a second one the second fails with a retriable
error, where the first has left its lock. In the next epoch a batch puts a fourth key and ends
the transaction. -/
theorem locks_covered_retried : ∃ (r : LockRun) (tc : TxnCoordSender) (ba : BatchRequest)
    (et : EndTxn), Reachable Whole r ∧ r.tc.status ≠ .committed ∧ r.locks = [[1], [2]] ∧
      r.tc.send {} [.pointWrite .put ⟨[4], [], 0⟩, .endTxn ⟨[], [], 0⟩ { commit := true }] =
        (tc, .sent ba) ∧ ba.endTxn? = some et ∧
      (∀ k ∈ r.locks, TxnPipeliner.EndTxnCovers et k) ∧ TxnPipeliner.EndTxnCovers et [4] := by
  let one : Request := .pointWrite .put ⟨[1], [], 1⟩
  let two : Request := .pointWrite .put ⟨[2], [], 2⟩
  let three : Request := .pointWrite .put ⟨[3], [], 3⟩
  let br : BatchResponse := { responses := [{}] }
  let err : Error := { detail := .retry, index := some 1 }
  have hleft₁ : Leaves (fun _ => 0) 0 ⟨[one], true⟩ (.ok br) [(0, [1])] := by
    refine ⟨?_, by simp [one, br, canIterateResponseKeys], ?_, fun _ _ h => by cases h⟩
    · simp [one, Request.isLocking, Request.header, RequestHeader.span, Span.mem_mk_nil]
    · rintro _ ⟨⟩ i k hik _ _ _ _ hr hresume
      obtain rfl := congrArg Prod.fst (List.mem_singleton.mp hik)
      cases hr
      cases hresume
  have hwhole₂ : Whole (.error err) [(0, [2])] := by
    rintro _ i ⟨⟩ - ⟨⟩ k hk
    cases List.mem_singleton.mp hk
  have hleft₂ : Leaves (fun _ => 0) 0 ⟨[two, three], true⟩ (.error err) [(0, [2])] := by
    refine ⟨?_, (fun _ h => by cases h), (fun _ h => by cases h),
      fun err i herr hu hi k hk => absurd hk (hwhole₂ err i herr hu hi k)⟩
    simp [two, Request.isLocking, Request.header, RequestHeader.span, Span.mem_mk_nil]
  let tc₁ : TxnCoordSender := { active := true, seqNums := ⟨1, 1, false⟩ }
  let tc₂ : TxnCoordSender := { tc₁ with pipeliner := { ifWrites := [⟨⟨[1], 1, .intent⟩, 0⟩] } }
  let tc₃ : TxnCoordSender :=
    { tc₂ with seqNums := ⟨3, 3, false⟩, pipeliner.ifWritesChainIndex := 1 }
  let tc₄ : TxnCoordSender :=
    { active := true, epoch := 1, txnState := .retryableError, pipeliner :=
      { ifWritesChainIndex := 1, lockFootprint := ⟨[⟨[1], none⟩, ⟨[2], none⟩], 98, false⟩ } }
  have h := (((Reachable.start false false).step (@Step.batch Whole _ {}
    [.pointWrite .put ⟨[1], [], 0⟩] tc₁ tc₂ ⟨[one], true⟩ oneRange (.ok br) _ _ _
    (by decide +kernel) (sound_put (by simp)) hleft₁ (fun _ _ h => by cases h)
    (by decide +kernel))).step (@Step.batch Whole _ {}
    [.pointWrite .put ⟨[2], [], 0⟩, .pointWrite .put ⟨[3], [], 0⟩] tc₃ tc₄ ⟨[two, three], true⟩
    oneRange (.error err) _ _ _ (by decide +kernel)
    (sound_error (by decide)) hleft₂ hwhole₂ (by decide +kernel))).step
    .clearRetryableErr
  have hs : tc₄.clearRetryableErr.status ≠ .committed := by decide
  let et : EndTxn :=
    ⟨true, {}, false, false, [⟨[1], []⟩, ⟨[2], []⟩], [⟨[4], 1, .intent⟩]⟩
  let ba : BatchRequest := ⟨[.pointWrite .put ⟨[4], [], 1⟩, .endTxn ⟨[], [], 2⟩ et], false⟩
  have hsend : tc₄.clearRetryableErr.send {} [.pointWrite .put ⟨[4], [], 0⟩,
      .endTxn ⟨[], [], 0⟩ { commit := true }] =
        ({ tc₄.clearRetryableErr with seqNums := ⟨2, 2, false⟩ }, .sent ba) := by decide +kernel
  obtain ⟨hlocks, hfour⟩ := (locks_covered h hs).2 {} _ _ ba et hsend
    (by decide) rfl
  exact ⟨_, _, ba, et, h, hs, rfl, hsend, rfl, hlocks,
    hfour _ mem_cons_self rfl _ (Span.mem_mk_nil.mpr rfl)⟩

/-- A `DeleteRange` over two ranges deletes a key of the first one and fails on the second one
with a retriable error. Its lock is lost. -/
theorem divided_lock_lost :
    ∃ r : LockRun, Reachable (fun _ _ => True) r ∧ r.tc.status ≠ .committed ∧
      ∃ k ∈ r.locks, ¬ r.tc.pipeliner.Covers k := by
  let req : Request := .deleteRange ⟨[1], [3], 1⟩ true false false
  let err : Error := { detail := .retry, index := some 0 }
  let rangeOf : Key → Nat := fun k => if k < [2] then 0 else 1
  have hsound : Sound ⟨[req], true⟩ (.error err) := sound_error (by decide)
  have hleft : Leaves rangeOf 1 ⟨[req], true⟩ (.error err) [(0, [1])] := by
    refine ⟨fun i k hik => ?_, fun br hbr => ?_, fun br hbr => ?_, fun _ i _ _ _ k hik => ?_⟩
    · obtain ⟨rfl, rfl⟩ := Prod.mk.inj (List.mem_singleton.mp hik)
      exact ⟨req, rfl, rfl, (Span.mem_range (by decide)).mpr (by decide)⟩
    · cases hbr
    · cases hbr
    · obtain ⟨-, rfl⟩ := Prod.mk.inj (List.mem_singleton.mp hik)
      decide
  let tc : TxnCoordSender := { active := true, seqNums := ⟨1, 1, false⟩ }
  let tc' : TxnCoordSender := { active := true, epoch := 1, txnState := .retryableError }
  have h := (Reachable.start false false).step (@Step.batch (fun _ _ => True) _ {}
    [.deleteRange ⟨[1], [3], 0⟩ false false false] tc tc' ⟨[req], true⟩ oneRange
    (.error err) rangeOf 1 _ (by decide +kernel) hsound hleft trivial (by decide +kernel))
  refine ⟨_, h, by decide, [1], List.mem_singleton_self _, ?_⟩
  rintro (⟨w, ⟨x, hx, -⟩, -⟩ | ⟨sp, hsp, -⟩)
  · exact absurd hx List.not_mem_nil
  · exact absurd hsp List.not_mem_nil

end LockRun

end Cockroach.KvCoord
