import Cockroach.KvCoord.Pipeliner
import Cockroach.Lib.Outcome

/-!
# What the pipeliner tracks

For each operation of the pipeliner, what becomes of its in-flight writes (`InFlight`) and of
the keys that its footprint covers. On the way down a batch changes neither
(`prepare_keeps`); what comes back moves the writes that were found to the footprint and adds
the locks of the batch (`trackResponse_tracks`).
-/

namespace Cockroach.KvCoord

open Kvpb Roachpb Storage CondensableSpanSet InFlightWriteSet List

/-- A header addresses a valid span, and a single key unless the request is ranged. -/
def Addressed (h : RequestHeader) (isRange : Bool) : Prop :=
  h.span.Valid ∧ (isRange = false → h.endKey = [])

instance (h : RequestHeader) (isRange : Bool) : Decidable (Addressed h isRange) :=
  instDecidableAnd

/-- What a batch and its result look like. -/
structure Sound (ba : BatchRequest) (res : Result) : Prop where
  addressed : ∀ req ∈ ba.requests, (∀ h et, req ≠ .endTxn h et) → Addressed req.header req.isRange
  length : ∀ br, res = .ok br → br.responses.length = ba.requests.length
  /-- what a response says to be locked are proper spans -/
  lock_valid : ∀ br, res = .ok br → ∀ r ∈ ba.requests.zip br.responses,
    ∀ sp ∈ lockSpanIterate r.1 (some r.2), sp.Valid
  /-- only an `EndTxn` that commits ends in a commit -/
  committed : ∀ br, res = .ok br → br.status = .committed →
    ∃ et, ba.endTxn? = some et ∧ et.commit = true

theorem Sound.responses {ba : BatchRequest} {br : BatchResponse} (hs : Sound ba (.ok br)) :
    ∀ r ∈ ba.requests.zip br.responses,
      ((∀ h et, r.1 ≠ .endTxn h et) → Addressed r.1.header r.1.isRange) ∧
        ∀ sp ∈ lockSpanIterate r.1 (some r.2), sp.Valid :=
  fun r hr => ⟨hs.addressed r.1 (of_mem_zip hr).1, hs.lock_valid br rfl r hr⟩

theorem sound_put {key : Key} {seq : Nat} (hkey : key ≠ []) :
    Sound ⟨[.pointWrite .put ⟨key, [], seq⟩], true⟩ (.ok { responses := [{}] }) := by
  have hvalid : (⟨key, []⟩ : Span).Valid := ⟨fun h => hkey h.1, fun h => absurd rfl h⟩
  refine ⟨forall_mem_singleton.mpr fun _ => ⟨hvalid, fun _ => rfl⟩, fun br hbr => ?_,
    fun br hbr rr hrr sp hsp => ?_, fun br hbr hc => ?_⟩
  · cases hbr
    rfl
  · cases hbr
    obtain rfl := mem_singleton.mp hrr
    obtain rfl := mem_singleton.mp hsp
    exact hvalid
  · cases hbr
    cases hc

namespace TxnPipeliner

/-- A write is in flight. -/
def InFlight (tp : TxnPipeliner) (w : SequencedWrite) : Prop := ∃ x ∈ tp.ifWrites, x.write = w

variable {tp tp' : TxnPipeliner} {w : SequencedWrite} {k : Key}

/-! ## The set of writes -/

variable {s : InFlightWriteSet} {ignored : List IgnoredSeqNumRange} {requests : List Request}
  {req' : Request} {ba : BatchRequest} {req : Request} {st : Settings} {resp : Response}
  {async : Bool} {res : Result} {ri : RangeIterator} {sp : Savepoint}

theorem exists_insert (v : SequencedWrite) :
    (∃ x ∈ s.insert v, x.write = w) ↔ w = v ∨ ∃ x ∈ s, x.write = w := by
  constructor
  · rintro ⟨x, hx, rfl⟩
    rcases mem_insert.mp hx with rfl | ⟨hx, -⟩
    · exact .inl rfl
    · exact .inr ⟨x, hx, rfl⟩
  · rintro (rfl | ⟨x, hx, rfl⟩)
    · exact ⟨⟨w, 0⟩, mem_insert.mpr (.inl rfl), rfl⟩
    · by_cases hv : x.write = v
      · exact ⟨⟨v, 0⟩, mem_insert.mpr (.inl rfl), hv.symm⟩
      · exact ⟨x, mem_insert.mpr (.inr ⟨hx, hv⟩), rfl⟩

theorem exists_remove (v : SequencedWrite) :
    (∃ x ∈ s.remove v, x.write = w) ↔ w ≠ v ∧ ∃ x ∈ s, x.write = w := by
  constructor
  · rintro ⟨x, hx, rfl⟩
    obtain ⟨hx, hv⟩ := mem_remove.mp hx
    exact ⟨hv, x, hx, rfl⟩
  · rintro ⟨hv, x, hx, rfl⟩
    exact ⟨x, mem_remove.mpr ⟨hx, hv⟩, rfl⟩

theorem exists_foldl_insert (f : Span → SequencedWrite) (spans : List Span) :
    (∃ x ∈ spans.foldl (fun s sp => s.insert (f sp)) s, x.write = w) ↔
      (∃ sp ∈ spans, w = f sp) ∨ ∃ x ∈ s, x.write = w := by
  induction spans generalizing s with
  | nil => simp
  | cons sp spans ih =>
    rw [foldl_cons, ih, exists_insert, exists_mem_cons_iff, or_assoc, or_left_comm]

theorem exists_foldl_remove {s ws : InFlightWriteSet} :
    (∃ x ∈ ws.foldl (fun s x => s.remove x.write) s, x.write = w) ↔
      (∀ x ∈ ws, w ≠ x.write) ∧ ∃ x ∈ s, x.write = w := by
  induction ws generalizing s with
  | nil => simp
  | cons x ws ih =>
    rw [foldl_cons, ih, exists_remove]
    simp only [mem_cons, forall_eq_or_imp]
    tauto

/-! ## On the way down -/

/-- No in-flight write has a chain index that is yet to come. -/
def Fresh (tp : TxnPipeliner) : Prop := ∀ x ∈ tp.ifWrites, x.chainIndex ≤ tp.ifWritesChainIndex

/-- What is tracked stays the same. -/
structure Keeps (tp tp' : TxnPipeliner) : Prop where
  inFlight : ∀ w, tp'.InFlight w ↔ tp.InFlight w
  valid : tp'.lockFootprint.Valid
  covers : ∀ k, tp'.lockFootprint.Covers k ↔ tp.lockFootprint.Covers k
  fresh : tp.Fresh → tp'.Fresh

theorem Keeps.refl (h : tp.lockFootprint.Valid) : Keeps tp tp :=
  ⟨fun _ => Iff.rfl, h, fun _ => Iff.rfl, id⟩

theorem Keeps.trans {tp'' : TxnPipeliner} (h : Keeps tp tp') (h' : Keeps tp' tp'') :
    Keeps tp tp'' :=
  ⟨fun w => (h'.inFlight w).trans (h.inFlight w), h'.valid,
    fun k => (h'.covers k).trans (h.covers k), fun hf => h'.fresh (h.fresh hf)⟩

theorem estimateSize_spec {s : CondensableSpanSet} (h : s.Valid) (spans : List RawSpan) (n : Int) :
    (s.estimateSize spans n).1.Valid ∧
      ∀ k, (s.estimateSize spans n).1.Covers k ↔ s.Covers k := by
  have hm := valid_mergeAndSort h
  have hc := fun k => covers_mergeAndSort h (k := k)
  unfold estimateSize
  dsimp only
  split_ifs
  · exact ⟨h, fun _ => Iff.rfl⟩
  · exact ⟨hm, hc⟩
  · exact ⟨hm, hc⟩
  · exact ⟨hm, hc⟩

theorem maybeRejectOverBudget_keeps (h : tp.lockFootprint.Valid) (ba : BatchRequest)
    (maxBytes : Int) : Keeps tp (tp.maybeRejectOverBudget ba maxBytes).1 := by
  unfold maybeRejectOverBudget
  split_ifs
  · exact .refl h
  · obtain ⟨hv, hc⟩ := estimateSize_spec h ((lockSpans ba.requests).map Span.raw)
      (maxBytes - tp.ifWrites.byteSize)
    exact ⟨fun _ => Iff.rfl, hv, hc, id⟩

/-- Chaining a request changes chain indexes only. -/
theorem chainRequest_writes (ignored : List IgnoredSeqNumRange) (n : Nat) (c : Chaining)
    (req : Request) :
    (chainRequest ignored n c req).ifWrites.map InFlightWrite.write =
      c.ifWrites.map InFlightWrite.write := by
  unfold chainRequest
  split_ifs
  · rw [map_map]
    refine map_congr_left fun x _ => ?_
    show (if _ then _ else _ : InFlightWrite).write = _
    split_ifs <;> rfl
  · rfl

theorem foldl_chainRequest_writes (ignored : List IgnoredSeqNumRange) (n : Nat) (c : Chaining)
    (requests : List Request) :
    (requests.foldl (chainRequest ignored n) c).ifWrites.map InFlightWrite.write =
      c.ifWrites.map InFlightWrite.write := by
  induction requests generalizing c with
  | nil => rfl
  | cons req requests ih => rw [foldl_cons, ih, chainRequest_writes]

theorem foldl_chainRequest_fresh {n : Nat} {c : Chaining} (h : ∀ x ∈ c.ifWrites, x.chainIndex ≤ n) :
    ∀ x ∈ (requests.foldl (chainRequest ignored n) c).ifWrites, x.chainIndex ≤ n := by
  induction requests generalizing c with
  | nil => exact h
  | cons req requests ih =>
    refine ih fun x hx => ?_
    unfold chainRequest at hx
    split_ifs at hx
    · obtain ⟨y, hy, rfl⟩ := mem_map.mp hx
      split_ifs
      · exact le_rfl
      · exact h y hy
    · exact h x hx

theorem inFlight_iff_mem_map : tp.InFlight w ↔ w ∈ tp.ifWrites.map InFlightWrite.write :=
  mem_map.symm

section

variable (h : tp.lockFootprint.Valid)
include h

theorem chainToInFlightWrites_keeps (ignored : List IgnoredSeqNumRange) (ba : BatchRequest) :
    Keeps tp (tp.chainToInFlightWrites ignored ba).1 := by
  unfold chainToInFlightWrites
  split_ifs
  · exact .refl h
  · refine ⟨fun w => ?_, h, fun _ => Iff.rfl, fun hf => ?_⟩
    · rw [inFlight_iff_mem_map, inFlight_iff_mem_map]
      show w ∈ (foldl _ _ _ : Chaining).ifWrites.map _ ↔ _
      rw [foldl_chainRequest_writes]
    · exact foldl_chainRequest_fresh fun x hx => (hf x hx).trans (Nat.le_succ _)

theorem checkBudget_keeps (st : Settings) (ba : BatchRequest) :
    Keeps tp (tp.checkBudget st ba).1 := by
  unfold checkBudget
  split_ifs
  · exact maybeRejectOverBudget_keeps h ba _
  · exact .refl h

/-- A batch on its way down changes nothing in what is tracked. -/
theorem prepare_keeps (st : Settings) (ignored : List IgnoredSeqNumRange) (ba : BatchRequest) :
    Keeps tp (tp.prepare st ignored ba).1 := by
  unfold prepare
  cases attachLocksToEndTxn tp ba with
  | error e => exact .refl h
  | ok ba =>
    have hbudget := checkBudget_keeps h st ba
    dsimp only
    split_ifs
    · exact hbudget
    · exact hbudget.trans (chainToInFlightWrites_keeps hbudget.valid ignored _)

end

/-! ## The requests that are sent -/

/-- The requests that the pipeliner leaves alone, up to what it attaches to an `EndTxn` and
to whether deleted keys are returned. -/
structure Alike (req req' : Request) : Prop where
  header : req'.header = req.header
  isLocking : req'.isLocking = req.isLocking
  isIntentWrite : req'.isIntentWrite = req.isIntentWrite
  lockStrength : req'.lockStrength = req.lockStrength
  endTxn : ∀ h' et', req' = .endTxn h' et' →
    ∃ h et, req = .endTxn h et ∧ et.commit = et'.commit

theorem Alike.refl (req : Request) : Alike req req :=
  ⟨rfl, rfl, rfl, rfl, fun h et heq => ⟨h, et, heq, rfl⟩⟩

theorem Alike.trans {a b c : Request} (h : Alike a b) (h' : Alike b c) : Alike a c :=
  ⟨h'.header.trans h.header, h'.isLocking.trans h.isLocking,
    h'.isIntentWrite.trans h.isIntentWrite, h'.lockStrength.trans h.lockStrength,
    fun _ _ hc =>
      let ⟨_, _, hb, hcommit⟩ := h'.endTxn _ _ hc
      let ⟨_, _, ha, hcommit'⟩ := h.endTxn _ _ hb
      ⟨_, _, ha, hcommit'.trans hcommit⟩⟩

variable {ba ba' : BatchRequest}

/-- What `attachLocksToEndTxn` returns. -/
theorem attachLocksToEndTxn_eq (h : attachLocksToEndTxn tp ba = .ok ba') :
    ba' = ba ∨ ∃ h et, ba.requests.getLast? = some (.endTxn h et) ∧
      ba' = { ba with requests :=
        ba.requests.dropLast ++ [.endTxn h (attached tp et ba.requests.dropLast)] } := by
  unfold attachLocksToEndTxn at h
  split at h
  · rename_i hd et hlast
    split_ifs at h
    exact .inr ⟨hd, et, hlast, (Except.ok.inj h).symm⟩
  · exact .inl (Except.ok.inj h).symm

theorem augment_commit (et : EndTxn) (req : Request) : (augment et req).commit = et.commit := by
  unfold augment
  split_ifs <;> rfl

theorem attached_commit (et : EndTxn) (requests : List Request) :
    (attached tp et requests).commit = et.commit := by
  have hfold : ∀ et : EndTxn, (requests.foldl augment et).commit = et.commit := by
    induction requests with
    | nil => exact fun _ => rfl
    | cons req requests ih => exact fun et => (ih (augment et req)).trans (augment_commit et req)
  exact hfold _

theorem alike_of_attachLocksToEndTxn
    (h : attachLocksToEndTxn tp ba = .ok ba') (hreq : req' ∈ ba'.requests) :
    ∃ req ∈ ba.requests, Alike req req' := by
  rcases attachLocksToEndTxn_eq h with rfl | ⟨hd, et, hlast, rfl⟩
  · exact ⟨req', hreq, .refl _⟩
  · rcases mem_append.mp hreq with hreq | hreq
    · exact ⟨req', mem_of_mem_dropLast hreq, .refl _⟩
    · rw [mem_singleton.mp hreq]
      refine ⟨.endTxn hd et, mem_of_getLast? hlast, rfl, rfl, rfl, rfl, fun h' et' heq => ?_⟩
      obtain ⟨-, rfl⟩ := Request.endTxn.inj heq
      exact ⟨hd, et, rfl, (attached_commit et _).symm⟩

theorem alike_returningKeys (req : Request) : Alike req (returningKeys req) := by
  cases req with
  | deleteRange h r i u =>
    refine ⟨rfl, rfl, rfl, rfl, fun h' et' heq => ?_⟩
    cases heq
  | _ => exact .refl _

theorem alike_of_asyncLoop (st : Settings) {n : Int}
    (hreq : req' ∈ (asyncLoop tp st requests n).1) : ∃ req ∈ requests, Alike req req' := by
  induction requests generalizing n with
  | nil => exact absurd hreq not_mem_nil
  | cons req rest ih =>
    -- where the loop stops, the rest is as it was
    have hstop : req' ∈ returningKeys req :: rest → ∃ r ∈ req :: rest, Alike r req' := by
      intro hmem
      rcases mem_cons.mp hmem with rfl | hmem
      · exact ⟨req, mem_cons_self, alike_returningKeys req⟩
      · exact ⟨req', mem_cons_of_mem _ hmem, .refl _⟩
    unfold asyncLoop at hreq
    dsimp only at hreq
    split_ifs at hreq
    · exact hstop hreq
    · exact hstop hreq
    · exact hstop hreq
    · exact hstop hreq
    · rcases mem_cons.mp hreq with rfl | hreq
      · exact ⟨req, mem_cons_self, alike_returningKeys req⟩
      · obtain ⟨r, hr, ha⟩ := ih hreq
        exact ⟨r, mem_cons_of_mem _ hr, ha⟩

theorem alike_of_canUseAsyncConsensus (st : Settings)
    (hreq : req' ∈ (canUseAsyncConsensus tp st ba).1) : ∃ req ∈ ba.requests, Alike req req' := by
  unfold canUseAsyncConsensus at hreq
  split_ifs at hreq
  · exact ⟨req', hreq, .refl _⟩
  · exact ⟨req', hreq, .refl _⟩
  · exact ⟨req', hreq, .refl _⟩
  · exact alike_of_asyncLoop st hreq

/-- Chaining adds `QueryIntent`s of in-flight writes and nothing else. -/
theorem mem_foldl_chainRequest {n : Nat} {c : Chaining}
    (h : req ∈ (requests.foldl (chainRequest ignored n) c).requests) :
    req ∈ c.requests ∨ req ∈ requests ∨
      ∃ w ∈ c.ifWrites.map InFlightWrite.write, req = queryIntentFor ignored w := by
  induction requests generalizing c with
  | nil => exact .inl h
  | cons first requests ih =>
    rw [foldl_cons] at h
    rcases ih h with h | h | ⟨w, hw, rfl⟩
    · unfold chainRequest at h
      split_ifs at h
      · rcases mem_append.mp h with h | h
        · rcases mem_append.mp h with h | h
          · exact .inl h
          · obtain ⟨x, hx, rfl⟩ := mem_map.mp h
            exact .inr (.inr ⟨x.write, mem_map_of_mem (mem_filter.mp hx).1, rfl⟩)
        · exact .inr (.inl (mem_singleton.mp h ▸ mem_cons_self))
      · rcases mem_append.mp h with h | h
        · exact .inl h
        · exact .inr (.inl (mem_singleton.mp h ▸ mem_cons_self))
    · exact .inr (.inl (mem_cons_of_mem _ h))
    · rw [chainRequest_writes] at hw
      exact .inr (.inr ⟨w, hw, rfl⟩)

theorem checkBudget_ifWrites (st : Settings) (ba : BatchRequest) :
    (tp.checkBudget st ba).1.ifWrites = tp.ifWrites := by
  unfold checkBudget maybeRejectOverBudget
  split_ifs <;> rfl

/-- How a batch gets past the pipeliner. -/
theorem prepare_eq_ok (h : tp.prepare st ignored ba = (tp', .ok ba')) :
    ∃ ba₁, attachLocksToEndTxn tp ba = .ok ba₁ ∧
      ba' = ((tp.checkBudget st ba₁).1.pipeline st ignored ba₁).2 := by
  unfold prepare at h
  cases ha : attachLocksToEndTxn tp ba with
  | error e =>
    rw [ha] at h
    cases h
  | ok ba₁ =>
    rw [ha] at h
    dsimp only at h
    split_ifs at h
    · cases h
    · exact ⟨ba₁, rfl, (Except.ok.inj (Prod.mk.inj h).2).symm⟩

theorem mem_pipeline (hreq : req' ∈ (tp.pipeline st ignored ba).2.requests) :
    (∃ req ∈ ba.requests, Alike req req') ∨
      ∃ w, tp.InFlight w ∧ req' = queryIntentFor ignored w := by
  unfold pipeline chainToInFlightWrites at hreq
  split_ifs at hreq
  · exact .inl (alike_of_canUseAsyncConsensus st hreq)
  · rcases mem_foldl_chainRequest hreq with h | h | ⟨w, hw, rfl⟩
    · exact absurd h not_mem_nil
    · exact .inl (alike_of_canUseAsyncConsensus st h)
    · exact .inr ⟨w, inFlight_iff_mem_map.mpr hw, rfl⟩

/-- A request that is sent is one of the batch or a `QueryIntent` of an in-flight write. -/
theorem mem_prepare (h : tp.prepare st ignored ba = (tp', .ok ba')) (hreq : req' ∈ ba'.requests) :
    (∃ req ∈ ba.requests, Alike req req') ∨
      ∃ w, tp.InFlight w ∧ req' = queryIntentFor ignored w := by
  obtain ⟨ba₁, ha, rfl⟩ := prepare_eq_ok h
  rcases mem_pipeline hreq with ⟨req₁, hmem₁, h₁⟩ | ⟨w, ⟨x, hx, hw⟩, rfl⟩
  · obtain ⟨req, hmem, h₀⟩ := alike_of_attachLocksToEndTxn ha hmem₁
    exact .inl ⟨req, hmem, h₀.trans h₁⟩
  · rw [checkBudget_ifWrites] at hx
    exact .inr ⟨w, ⟨x, hx, hw⟩, rfl⟩

/-! ## On the way back -/

/-- The locks that the pipeliner tracks. -/
def Covers (tp : TxnPipeliner) (k : Key) : Prop :=
  (∃ w, tp.InFlight w ∧ w.key = k) ∨ tp.lockFootprint.Covers k

theorem Keeps.coversAll (h : Keeps tp tp') : tp'.Covers k ↔ tp.Covers k := by
  unfold Covers
  rw [h.covers]
  simp only [h.inFlight]

theorem hasAcquiredLocks_iff :
    tp.hasAcquiredLocks = true ↔ (∃ w, tp.InFlight w) ∨ tp.lockFootprint.s ≠ [] := by
  unfold hasAcquiredLocks empty InFlight
  rw [Bool.or_eq_true, Bool.not_eq_true', Bool.not_eq_true', isEmpty_eq_false_iff,
    isEmpty_eq_false_iff]
  refine or_congr ⟨fun h => ?_, ?_⟩ Iff.rfl
  · obtain ⟨x, hx⟩ := exists_mem_of_ne_nil _ h
    exact ⟨x.write, x, hx, rfl⟩
  · rintro ⟨w, x, hx, -⟩ hnil
    rw [hnil] at hx
    exact absurd hx not_mem_nil

/-- What a response to one request can do. -/
inductive Tracks (async : Bool) (tp : TxnPipeliner) (req : Request) (resp : Response) :
    TxnPipeliner → Prop
  | found (h : RequestHeader) (args : QueryIntent) (hreq : req = .queryIntent h args)
      (hfound : (resp.foundIntent || resp.foundUnpushedIntent) = true) :
      Tracks async tp req resp { tp with
        ifWrites := tp.ifWrites.remove ⟨h.key, args.txnSequence, args.strength⟩
        lockFootprint := tp.lockFootprint.insertPlain [⟨h.key, []⟩] }
  | skipped (h : RequestHeader) (args : QueryIntent) (hreq : req = .queryIntent h args)
      (hfound : (resp.foundIntent || resp.foundUnpushedIntent) = false) :
      Tracks async tp req resp tp
  | unlocked (hreq : ∀ h args, req ≠ .queryIntent h args) (hlock : req.isLocking = false) :
      Tracks async tp req resp tp
  | async (hlock : req.isLocking = true) (ha : async = true)
      (hpoint : ∀ sp ∈ lockSpanIterate req (some resp), sp.endKey = []) :
      Tracks async tp req resp { tp with
        ifWrites := (lockSpanIterate req (some resp)).foldl
          (fun s sp => s.insert ⟨sp.key, req.header.sequence, req.lockStrength⟩) tp.ifWrites }
  | sync (hlock : req.isLocking = true) (ha : async = false) :
      Tracks async tp req resp
        { tp with lockFootprint := tp.lockFootprint.insertPlain (lockSpanIterate req (some resp)) }

theorem trackLocks_tracks
    (hlock : req.isLocking = true) (h : tp.trackLocks async req resp = .ok tp') :
    Tracks async tp req resp tp' := by
  unfold trackLocks at h
  cases async with
  | true =>
    rw [if_pos rfl] at h
    split_ifs at h with hany
    cases h
    refine .async hlock rfl fun sp hsp => ?_
    by_contra hne
    exact hany (any_eq_true.mpr ⟨sp, hsp, decide_eq_true hne⟩)
  | false =>
    rw [if_neg Bool.false_ne_true] at h
    cases h
    exact .sync hlock rfl

theorem trackResponse_tracks
    (h : trackResponse async tp (req, resp) = .ok tp') : Tracks async tp req resp tp' := by
  unfold trackResponse at h
  cases req with
  | queryIntent hd args =>
    split_ifs at h with hf
    · cases h
      exact .found hd args rfl hf
    · cases h
      exact .skipped hd args rfl (Bool.not_eq_true _ ▸ hf)
  | _ =>
    dsimp only at h
    split_ifs at h with hl
    · exact trackLocks_tracks hl h
    · cases h
      exact .unlocked (by simp) (Bool.not_eq_true _ ▸ hl)

/-! ## What stays tracked -/

/-- All that is tracked are proper spans and keys. -/
structure Valid (tp : TxnPipeliner) : Prop where
  footprint : tp.lockFootprint.Valid
  keys : ∀ w, tp.InFlight w → (⟨w.key, []⟩ : Span).Valid

theorem Keeps.validAll (h : Keeps tp tp') (hv : tp.Valid) : tp'.Valid :=
  ⟨h.valid, fun w hw => hv.keys w ((h.inFlight w).mp hw)⟩

section

variable (h : Tracks async tp req resp tp')
include h

theorem Tracks.validAll (hv : tp.Valid)
    (hspan : (∀ h et, req ≠ .endTxn h et) → Addressed req.header req.isRange)
    (hlock : ∀ sp ∈ lockSpanIterate req (some resp), sp.Valid) : tp'.Valid := by
  cases h with
  | found hd args hreq hfound =>
    subst hreq
    obtain ⟨hvalid, hpoint⟩ := hspan (by simp)
    have hkey : hd.span = ⟨hd.key, []⟩ := Span.ext rfl (hpoint rfl)
    refine ⟨valid_insertPlain hv.footprint fun sp hsp => ?_, fun w hw => ?_⟩
    · rw [mem_singleton.mp hsp, ← hkey]
      exact hvalid
    · exact hv.keys w ((exists_remove _).mp hw).2
  | skipped | unlocked => exact hv
  | async hl ha hpoint =>
    refine ⟨hv.footprint, fun w hw => ?_⟩
    rcases (exists_foldl_insert _ _).mp hw with ⟨sp, hsp, rfl⟩ | hw
    · have hkey : sp = ⟨sp.key, []⟩ := Span.ext rfl (hpoint sp hsp)
      exact hkey ▸ hlock sp hsp
    · exact hv.keys w hw
  | sync hl ha => exact ⟨valid_insertPlain hv.footprint hlock, hv.keys⟩

/-- A response takes no key out of sight: a write that is found moves to the footprint. -/
theorem Tracks.covers (hk : tp.Covers k) : tp'.Covers k := by
  cases h with
  | found hd args hreq hfound =>
    rcases hk with ⟨w, hw, rfl⟩ | hk
    · by_cases heq : w = ⟨hd.key, args.txnSequence, args.strength⟩
      · refine .inr (covers_insertPlain.mpr (.inr ⟨⟨hd.key, []⟩, mem_singleton_self _, ?_⟩))
        rw [Span.mem_mk_nil, heq]
      · exact .inl ⟨w, (exists_remove _).mpr ⟨heq, hw⟩, rfl⟩
    · exact .inr (covers_insertPlain.mpr (.inl hk))
  | skipped | unlocked => exact hk
  | async hl ha hpoint =>
    rcases hk with ⟨w, hw, rfl⟩ | hk
    · exact .inl ⟨w, (exists_foldl_insert _ _).mpr (.inr hw), rfl⟩
    · exact .inr hk
  | sync hl ha => exact hk.imp id fun hk => covers_insertPlain.mpr (.inl hk)

/-- What a response says to be locked is tracked. -/
theorem Tracks.covers_lock {sp : Span}
    (hl : req.isLocking = true)
    (hsp : sp ∈ lockSpanIterate req (some resp)) (hk : k ∈ sp) : tp'.Covers k := by
  cases h with
  | found hd args hreq hfound | skipped hd args hreq hfound =>
    subst hreq
    cases hl
  | unlocked hreq hl' =>
    rw [hl] at hl'
    cases hl'
  | async _ ha hpoint =>
    have hkey : k = sp.key := (Span.mem_point (hpoint sp hsp)).mp hk
    exact .inl ⟨_, (exists_foldl_insert _ _).mpr (.inl ⟨sp, hsp, rfl⟩), hkey.symm⟩
  | sync _ ha => exact .inr (covers_insertPlain.mpr (.inr ⟨sp, hsp, hk⟩))

end

/-- The responses of a batch. -/
theorem foldlM_trackResponse {rs : List (Request × Response)} (hv : tp.Valid)
    (hrs : ∀ r ∈ rs, ((∀ h et, r.1 ≠ .endTxn h et) → Addressed r.1.header r.1.isRange) ∧
      ∀ sp ∈ lockSpanIterate r.1 (some r.2), sp.Valid)
    (h : rs.foldlM (trackResponse async) tp = .ok tp') :
    tp'.Valid ∧ (∀ k, tp.Covers k → tp'.Covers k) ∧
      ∀ r ∈ rs, r.1.isLocking = true → ∀ sp ∈ lockSpanIterate r.1 (some r.2), ∀ k ∈ sp,
        tp'.Covers k := by
  induction rs generalizing tp with
  | nil =>
    cases h
    exact ⟨hv, fun _ hk => hk, by simp⟩
  | cons r rs ih =>
    rw [foldlM_cons] at h
    obtain ⟨tp₁, h₁, h⟩ := Lib.bind_eq_ok.mp h
    have ht := trackResponse_tracks h₁
    obtain ⟨hspan, hlock⟩ := hrs r mem_cons_self
    obtain ⟨hv', hcov, hnew⟩ := ih (ht.validAll hv hspan hlock)
      (fun r' hr' => hrs r' (mem_cons_of_mem _ hr')) h
    refine ⟨hv', fun k hk => hcov k (ht.covers hk), fun r' hr' => ?_⟩
    rcases mem_cons.mp hr' with rfl | hr'
    · exact fun hl sp hsp k hk => hcov k (ht.covers_lock hl hsp hk)
    · exact hnew r' hr'

theorem mem_of_mem_strippedRequests {err : Error}
    (h : req ∈ strippedRequests ba err) : req ∈ ba.requests := by
  unfold strippedRequests at h
  split at h
  · split_ifs at h
    · exact mem_of_mem_eraseIdx h
    · exact h
  · exact h

/-- What the result of a batch can do. -/
inductive Updates (tp : TxnPipeliner) (ba : BatchRequest) : Result → TxnPipeliner → Prop
  | error (err : Error) : Updates tp ba (.error err) { tp with
      lockFootprint := tp.lockFootprint.insertPlain (lockSpans (strippedRequests ba err)) }
  | aborted (br : BatchResponse) (hst : br.status = .aborted) : Updates tp ba (.ok br) { tp with
      lockFootprint := tp.lockFootprint.insertPlain (lockSpans ba.requests) }
  | committed (br : BatchResponse) (hst : br.status = .committed) :
      Updates tp ba (.ok br) { tp with ifWrites := [] }
  | responses {tp' : TxnPipeliner} (br : BatchResponse) (hst : br.status.isFinalized = false)
      (h : (ba.requests.zip br.responses).foldlM (trackResponse ba.asyncConsensus) tp = .ok tp') :
      Updates tp ba (.ok br) tp'

theorem updateLockTrackingInner_updates (h : tp.updateLockTrackingInner ba res = .ok tp') :
    Updates tp ba res tp' := by
  unfold updateLockTrackingInner at h
  cases res with
  | error err =>
    cases h
    exact .error err
  | ok br =>
    dsimp only at h
    cases hst : br.status with
    | aborted =>
      rw [hst] at h
      cases h
      exact .aborted br hst
    | committed =>
      rw [hst] at h
      cases h
      exact .committed br hst
    | _ =>
      rw [hst] at h
      exact .responses br (by rw [hst]; rfl) h

theorem lockSpans_valid
    (h : ∀ req ∈ requests, (∀ h et, req ≠ .endTxn h et) → Addressed req.header req.isRange) :
    ∀ sp ∈ lockSpans requests, sp.Valid := by
  intro sp hsp
  obtain ⟨req, hreq, hl, rfl⟩ := mem_lockSpans.mp hsp
  refine (h req hreq ?_).1
  rintro h et rfl
  cases hl

section

variable (hv : tp.Valid)
include hv

/-- The locks of requests of which no response tells more. -/
theorem Valid.insert_lockSpans
    (h : ∀ req ∈ requests, (∀ h et, req ≠ .endTxn h et) → Addressed req.header req.isRange) :
    { tp with lockFootprint := tp.lockFootprint.insertPlain (lockSpans requests) }.Valid :=
  ⟨valid_insertPlain hv.footprint (lockSpans_valid h), hv.keys⟩

theorem Valid.updateLockTrackingInner
    (hs : Sound ba res) (h : tp.updateLockTrackingInner ba res = .ok tp') : tp'.Valid := by
  cases updateLockTrackingInner_updates h with
  | error err =>
    exact hv.insert_lockSpans fun req hreq =>
      hs.addressed req (mem_of_mem_strippedRequests hreq)
  | aborted br hst => exact hv.insert_lockSpans hs.addressed
  | committed br hst =>
    refine ⟨hv.footprint, ?_⟩
    rintro w ⟨x, hx, -⟩
    exact absurd hx not_mem_nil
  | responses br hst h => exact (foldlM_trackResponse hv hs.responses h).1

theorem Valid.condense (st : Settings) (ri : RangeIterator) :
    (tp.condenseIfOverBudget st ri).Valid := by
  unfold condenseIfOverBudget
  dsimp only
  split_ifs
  · exact hv
  · exact hv
  · exact ⟨(maybeCondense_spec ri _ hv.footprint).1, hv.keys⟩

theorem covers_condense (st : Settings) (ri : RangeIterator)
    (hk : tp.Covers k) : (tp.condenseIfOverBudget st ri).Covers k := by
  unfold condenseIfOverBudget
  dsimp only
  split_ifs
  · exact hk
  · exact hk
  · exact hk.imp id ((maybeCondense_spec ri _ hv.footprint).2 k)

theorem Valid.updateLockTracking (hs : Sound ba res)
    (h : tp.updateLockTracking st ri ba res = .ok tp') : tp'.Valid := by
  obtain ⟨tp₁, h₁, rfl⟩ := Lib.map_eq_ok.mp h
  exact (hv.updateLockTrackingInner hs h₁).condense st ri

/-- Unless the transaction has committed, the result of a batch takes no key out of sight. -/
theorem Valid.covers_updateLockTracking (hs : Sound ba res)
    (hc : ∀ br, res = .ok br → br.status ≠ .committed)
    (h : tp.updateLockTracking st ri ba res = .ok tp') (hk : tp.Covers k) : tp'.Covers k := by
  obtain ⟨tp₁, h₁, rfl⟩ := Lib.map_eq_ok.mp h
  refine covers_condense (hv.updateLockTrackingInner hs h₁) st ri ?_
  cases updateLockTrackingInner_updates h₁ with
  | error | aborted => exact hk.imp id fun hk => covers_insertPlain.mpr (.inl hk)
  | committed br hst => exact absurd hst (hc br rfl)
  | responses br hst h => exact (foldlM_trackResponse hv hs.responses h).2.1 k hk

end

/-! ## Chain indexes -/

theorem fresh_foldl_insert {n : Nat} (f : Span → SequencedWrite)
    (spans : List Span) (h : ∀ x ∈ s, x.chainIndex ≤ n) :
    ∀ x ∈ spans.foldl (fun s sp => s.insert (f sp)) s, x.chainIndex ≤ n := by
  induction spans generalizing s with
  | nil => exact h
  | cons sp spans ih =>
    refine ih fun x hx => ?_
    rcases mem_insert.mp hx with rfl | ⟨hx, -⟩
    · exact Nat.zero_le _
    · exact h x hx

theorem Tracks.fresh (h : Tracks async tp req resp tp') (hf : tp.Fresh) : tp'.Fresh := by
  cases h with
  | found hd args hreq hfound => exact fun x hx => hf x (mem_remove.mp hx).1
  | skipped | unlocked | sync => exact hf
  | async hl ha hpoint => exact fresh_foldl_insert _ _ hf

theorem Fresh.updateLockTracking (hf : tp.Fresh)
    (h : tp.updateLockTracking st ri ba res = .ok tp') :
    tp'.Fresh := by
  obtain ⟨tp₁, h₁, rfl⟩ := Lib.map_eq_ok.mp h
  have hf₁ : tp₁.Fresh := by
    cases updateLockTrackingInner_updates h₁ with
    | error | aborted => exact hf
    | committed => exact fun x hx => absurd hx not_mem_nil
    | responses br hst h =>
      refine (Lib.Sat.foldlM (E := fun _ => True) (fun tp r _ hf => ?_) hf).elim h
      exact Lib.returns_iff.mpr fun tp' h => (trackResponse_tracks h).fresh hf
  unfold condenseIfOverBudget
  dsimp only
  split_ifs <;> exact hf₁

theorem Fresh.epochBumpedLocked (hf : tp.Fresh) : tp.epochBumpedLocked.Fresh := by
  unfold TxnPipeliner.epochBumpedLocked
  split_ifs
  · exact hf
  · exact fun x hx => absurd hx not_mem_nil

theorem Fresh.rollbackToSavepointLocked (hf : tp.Fresh) (sp : Savepoint) :
    (tp.rollbackToSavepointLocked sp).Fresh := by
  have hremove : ∀ {ws s : InFlightWriteSet}, (∀ x ∈ s, x ∈ tp.ifWrites) →
      ∀ x ∈ ws.foldl (fun s x => s.remove x.write) s, x ∈ tp.ifWrites := by
    intro ws
    induction ws with
    | nil => exact fun hs => hs
    | cons y ws ih => exact fun hs => ih fun x hx => hs x (mem_remove.mp hx).1
  intro x hx
  unfold TxnPipeliner.rollbackToSavepointLocked at hx
  split_ifs at hx
  · exact absurd hx not_mem_nil
  · exact hf x (hremove (fun _ h => h) x hx)

/-! ## Epochs and savepoints -/

theorem Valid.keySpans_valid (hv : tp.Valid) (ws : InFlightWriteSet)
    (hws : ∀ x ∈ ws, x ∈ tp.ifWrites) : (tp.lockFootprint.insertPlain (keySpans ws)).Valid := by
  refine valid_insertPlain hv.footprint fun t ht => ?_
  obtain ⟨x, hx, rfl⟩ := mem_map.mp ht
  exact hv.keys x.write ⟨x, hws x hx, rfl⟩

theorem covers_keySpans {ws : InFlightWriteSet} :
    Roachpb.Covers (keySpans ws) k ↔ ∃ x ∈ ws, x.write.key = k := by
  constructor
  · rintro ⟨sp, hsp, hk⟩
    obtain ⟨x, hx, rfl⟩ := mem_map.mp hsp
    exact ⟨x, hx, (Span.mem_mk_nil.mp hk).symm⟩
  · rintro ⟨x, hx, rfl⟩
    exact ⟨⟨x.write.key, []⟩, mem_map.mpr ⟨x, hx, rfl⟩, Span.mem_mk_nil.mpr rfl⟩

/-- In a new epoch all writes are in the footprint. -/
theorem Valid.epochBumpedLocked (hv : tp.Valid) :
    tp.epochBumpedLocked.Valid ∧ tp.epochBumpedLocked.ifWrites = [] ∧
      ∀ k, tp.epochBumpedLocked.Covers k ↔ tp.Covers k := by
  unfold TxnPipeliner.epochBumpedLocked
  split_ifs with hnil
  · exact ⟨hv, hnil, fun _ => Iff.rfl⟩
  · have hvalid := hv.keySpans_valid tp.ifWrites fun _ hx => hx
    refine ⟨⟨valid_mergeAndSort hvalid, ?_⟩, rfl, fun k => ?_⟩
    · rintro w ⟨x, hx, -⟩
      exact absurd hx not_mem_nil
    · unfold Covers
      rw [covers_mergeAndSort hvalid, covers_insertPlain, covers_keySpans]
      constructor
      · rintro (⟨w, ⟨x, hx, -⟩, -⟩ | hk | ⟨x, hx, hk⟩)
        · exact absurd hx not_mem_nil
        · exact .inr hk
        · exact .inl ⟨x.write, ⟨x, hx, rfl⟩, hk⟩
      · rintro (⟨w, ⟨x, hx, rfl⟩, hk⟩ | hk)
        · exact .inr (.inr ⟨x, hx, hk⟩)
        · exact .inr (.inl hk)

/-- What stays in flight after a rollback. -/
theorem inFlight_rollbackToSavepointLocked (hinit : sp.initial = true → sp.seqNum = 0) :
    (tp.rollbackToSavepointLocked sp).InFlight w ↔ tp.InFlight w ∧ w.sequence < sp.seqNum := by
  unfold InFlight rollbackToSavepointLocked
  split_ifs with hi
  · rw [hinit hi]
    simp
  · rw [exists_foldl_remove, and_comm]
    refine and_congr_right ?_
    rintro ⟨x, hx, rfl⟩
    constructor
    · intro h
      by_contra hge
      exact h x (mem_filter.mpr ⟨hx, decide_eq_true (not_lt.mp hge)⟩) rfl
    · intro hlt y hy heq
      have hge := of_decide_eq_true (mem_filter.mp hy).2
      rw [← heq] at hge
      omega

theorem Valid.rollbackToSavepointLocked (hv : tp.Valid)
    (hinit : sp.initial = true → sp.seqNum = 0) : (tp.rollbackToSavepointLocked sp).Valid := by
  refine ⟨valid_mergeAndSort (hv.keySpans_valid _ fun x hx => ?_), fun w hw => ?_⟩
  · exact (mem_filter.mp hx).1
  · exact hv.keys w ((inFlight_rollbackToSavepointLocked hinit).mp hw).1

/-- The writes that are dropped from the set move to the footprint. -/
theorem Valid.covers_rollbackToSavepointLocked (hv : tp.Valid) (sp : Savepoint) :
    (tp.rollbackToSavepointLocked sp).lockFootprint.Covers k ↔
      tp.lockFootprint.Covers k ∨ ∃ w, tp.InFlight w ∧ sp.seqNum ≤ w.sequence ∧ w.key = k := by
  have hvalid := hv.keySpans_valid
    (tp.ifWrites.filter fun x => decide (sp.seqNum ≤ x.write.sequence))
    fun x hx => (mem_filter.mp hx).1
  refine (covers_mergeAndSort hvalid).trans
    (covers_insertPlain.trans (or_congr Iff.rfl (covers_keySpans.trans ?_)))
  constructor
  · rintro ⟨x, hx, hk⟩
    obtain ⟨hx, hseq⟩ := mem_filter.mp hx
    exact ⟨x.write, ⟨x, hx, rfl⟩, of_decide_eq_true hseq, hk⟩
  · rintro ⟨w, ⟨x, hx, rfl⟩, hseq, hk⟩
    exact ⟨x, mem_filter.mpr ⟨hx, decide_eq_true hseq⟩, hk⟩

theorem Valid.coversAll_rollbackToSavepointLocked (hv : tp.Valid)
    (hinit : sp.initial = true → sp.seqNum = 0) (hk : tp.Covers k) :
    (tp.rollbackToSavepointLocked sp).Covers k := by
  rcases hk with ⟨w, hw, hkey⟩ | hk
  · rcases lt_or_ge w.sequence sp.seqNum with hlt | hge
    · exact .inl ⟨w, (inFlight_rollbackToSavepointLocked hinit).mpr ⟨hw, hlt⟩, hkey⟩
    · exact .inr ((hv.covers_rollbackToSavepointLocked sp).mpr (.inr ⟨w, hw, hge, hkey⟩))
  · exact .inr ((hv.covers_rollbackToSavepointLocked sp).mpr (.inl hk))

end TxnPipeliner

end Cockroach.KvCoord
