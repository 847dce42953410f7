import Cockroach.Rangefeed.Feed
import Cockroach.Rangefeed.Tracking

/-!
# Resolved timestamps are sound

A transaction that can still commit is tracked as long as it has intents: before the
initialization the reference counts are the intents written since the start of the
stream and those delivered by the scan, and afterwards there are at least as many as
intents (`Inv`). So nothing is published at or below a timestamp that was resolved, and
no assertion fails (`resolved_timestamp_sound`).

The snapshot of the scan must not have fewer intents of a transaction than there were
at the start of the stream; otherwise the initialization fails
(`resolved_timestamp_late_snapshot`).
-/

namespace Cockroach.Rangefeed

open Lib Hlc ResolvedTimestamp List Function UnresolvedIntentQueue Timestamp

theorem count_cons (i : Intent) (l : List Intent) (id : UUID) :
    count (i :: l) id = count l id + if i.txnID = id then 1 else 0 := by
  unfold count
  rw [countP_cons]
  by_cases h : i.txnID = id
  · simp [h]
  · simp [h]

theorem count_erase {i : Intent} {l : List Intent} (hi : i ∈ l) (id : UUID) :
    count (l.erase i) id = count l id - if i.txnID = id then 1 else 0 := by
  have hperm := perm_cons_erase hi
  have hcount : count l id = count (i :: l.erase i) id := by
    unfold count
    rw [hperm.countP_eq]
  rw [hcount, count_cons]
  omega

theorem count_nonneg (l : List Intent) (id : UUID) : 0 ≤ count l id := Int.natCast_nonneg _

theorem one_le_count {i : Intent} {l : List Intent} (hi : i ∈ l) : 1 ≤ count l i.txnID := by
  have h := count_erase hi i.txnID
  have h' := count_nonneg (l.erase i) i.txnID
  rw [if_pos rfl] at h
  omega

namespace Feed

/-- What every run keeps. -/
structure Inv (f : Feed) : Prop where
  tracks : f.rts.Tracks f.reached
  intents : ∀ i ∈ f.intents, {} < i.timestamp ∧ i.timestamp ≤ f.reached i.txnID
  left : ∀ i ∈ f.left, {} < i.timestamp ∧ i.timestamp ≤ f.reached i.txnID
  untaken : f.taken = none → f.left = [] ∧ f.rts.init = false
  covered : ∀ l, f.taken = some l → ∀ id, count f.start id ≤ count l id
  before : f.rts.init = false → ∀ id, f.rts.refs id =
    count f.intents id - count f.start id + (count (f.taken.getD []) id - count f.left id)
  after : f.rts.init = true →
    f.left = [] ∧ ∀ id, id ∉ f.aborted → count f.intents id ≤ f.rts.refs id

variable {st : Settings} {f f' : Feed} {e : Event}

theorem IsStart.inv (h : f.IsStart) : f.Inv := by
  have hview : ∀ id, ({} : ResolvedTimestamp).intentQ.view id = none := by
    intro id
    unfold view
    rw [Std.ExtTreeMap.getElem?_empty]
    rfl
  have hno : ∀ {P : Timestamp → Int → Prop} (id : UUID) (t : Timestamp) (c : Int),
      ({} : ResolvedTimestamp).intentQ.view id = some (t, c) → P t c := by
    intro P id t c hc
    rw [hview] at hc
    cases hc
  constructor
  case tracks =>
    rw [h.rts]
    refine ⟨wf_empty, hno, fun id t c hc => ?_, hno, rfl, fun _ => ⟨rfl, rfl⟩, fun hi => ?_⟩
    · rw [hview] at hc
      cases hc
    · cases hi
  case intents => exact h.intents
  case left =>
    rw [h.left]
    intro i hi
    cases hi
  case untaken =>
    rw [h.rts]
    exact fun _ => ⟨h.left, rfl⟩
  case covered =>
    rw [h.taken]
    intro l hl
    cases hl
  case before =>
    intro _ id
    rw [h.start, h.taken, h.left, h.rts]
    unfold refs
    rw [hview]
    show (0 : Int) = _ - _ + (count [] id - count [] id)
    omega
  case after =>
    rw [h.rts]
    intro hi
    cases hi

/-- What an event does under the invariant. -/
def Sound (st : ResolvedTimestamp.Settings) (f : Feed) (e : Event) : Prop :=
  ∃ f', f.step st e = .ok f' ∧ f'.Inv ∧ f.rts.resolvedTS ≤ f'.rts.resolvedTS

/-- The timestamps that transactions have had only go up. -/
theorem le_reach (f : Feed) (id id' : UUID) (ts : Timestamp) :
    f.reached id' ≤ f.reach id ts id' := by
  unfold reach
  by_cases heq : id' = id
  · subst heq
    rw [update_self]
    exact le_max_left _ _
  · rw [update_of_ne heq]

variable {ts : Timestamp} {rts' : ResolvedTimestamp} {i : Intent}

theorem reach_of_le (f : Feed) {id : UUID} (h : ts ≤ f.reached id) : f.reach id ts = f.reached := by
  unfold reach
  rw [max_eq_left h]
  exact update_eq_self _ _

theorem assertOpAboveRTS_ok {rts : ResolvedTimestamp} (h : rts.resolvedTS < ts)
    (fatal : Bool) : rts.assertOpAboveRTS ts fatal = .ok () := by
  unfold assertOpAboveRTS
  rw [if_neg fun hc => absurd h (not_lt.mpr hc.1)]
  rfl

theorem refs_congr {rts rts' : ResolvedTimestamp} (h : rts'.intentQ = rts.intentQ) (id : UUID) :
    rts'.refs id = rts.refs id := by
  unfold refs
  rw [h]

/-- A call that leaves the range alone. -/
theorem Inv.of_leaves (h : f.Inv) (hl : Leaves f.rts f.reached f.rts.refs rts') :
    Inv { f with rts := rts' } where
  tracks := hl.tracks
  intents := h.intents
  left := h.left
  untaken ht := ⟨(h.untaken ht).1, hl.init.trans (h.untaken ht).2⟩
  covered := h.covered
  before hi id := by
    show rts'.refs id = _
    rw [hl.refs]
    exact h.before (hl.init ▸ hi) id
  after hi := by
    obtain ⟨hleft, hle⟩ := h.after (hl.init ▸ hi)
    refine ⟨hleft, fun id hid => ?_⟩
    show _ ≤ rts'.refs id
    rw [hl.refs]
    exact hle id hid

/-- An operation that only has to be above the resolved timestamp. -/
theorem Inv.write (h : f.Inv) (st : Settings) (op : MVCCLogicalOp)
    (hop : ∀ rts : ResolvedTimestamp, rts.consumeLogicalOp st op = do
      rts.assertOpAboveRTS ts true return (rts.intentQ, false)) (hts : f.rts.closedTS < ts) :
    ∃ rts' b, f.rts.consume st op = .ok (rts', b) ∧ Inv { f with rts := rts' } ∧
      f.rts.resolvedTS ≤ rts'.resolvedTS := by
  obtain ⟨rts', b, hok, htracks, hle, hi, -, hq⟩ := h.tracks.settle h.tracks.settles_refl
  have hass := assertOpAboveRTS_ok (h.tracks.resolved_le.trans_lt hts) true
  refine ⟨rts', b, ?_, h.of_leaves ⟨htracks, hle, hi, refs_congr hq⟩, hle⟩
  unfold consume
  rw [hop, hass]
  exact hok

/-- A call for one transaction, with what it does to the intents. -/
theorem Inv.of_update (h : f.Inv) {id : UUID} {delta : Int} {intents' left' : List Intent}
    (hl : Leaves f.rts (f.reach id ts) (update f.rts.refs id
        (if f.rts.init ∧ delta = -1 ∧ f.rts.refs id = 0 then 0 else f.rts.refs id + delta)) rts')
    (hintents : ∀ i ∈ intents', {} < i.timestamp ∧ i.timestamp ≤ f.reach id ts i.txnID)
    (hleft : ∀ i ∈ left', i ∈ f.left)
    (hbefore : f.rts.init = false → ∀ id', count intents' id' - count left' id' =
      count f.intents id' - count f.left id' + if id' = id then delta else 0)
    (hafter : f.rts.init = true → ∀ id', count intents' id' =
      count f.intents id' + if id' = id then delta else 0) :
    Inv { f with rts := rts', intents := intents', left := left', reached := f.reach id ts } := by
  have hnil : f.left = [] → left' = [] := by
    intro hn
    refine eq_nil_iff_forall_not_mem.mpr fun i hi => ?_
    have := hleft i hi
    rw [hn] at this
    cases this
  constructor
  case tracks => exact hl.tracks
  case intents => exact hintents
  case left =>
    intro i hi
    obtain ⟨hpos, hle⟩ := h.left i (hleft i hi)
    exact ⟨hpos, hle.trans (f.le_reach id i.txnID ts)⟩
  case untaken => exact fun ht => ⟨hnil (h.untaken ht).1, hl.init.trans (h.untaken ht).2⟩
  case covered => exact h.covered
  case before =>
    intro hi id'
    have hi' : f.rts.init = false := hl.init.symm.trans hi
    have hold := h.before hi' id'
    have hnew := hbefore hi' id'
    show rts'.refs id' = count intents' id' - count f.start id' +
      (count (f.taken.getD []) id' - count left' id')
    rw [hl.refs, if_neg (fun hc => by rw [hi'] at hc; cases hc.1)]
    by_cases heq : id' = id
    · subst heq
      rw [update_self]
      rw [if_pos rfl] at hnew
      omega
    · rw [update_of_ne heq]
      rw [if_neg heq] at hnew
      omega
  case after =>
    intro hi
    have hi' : f.rts.init = true := hl.init.symm.trans hi
    obtain ⟨hempty, hle⟩ := h.after hi'
    refine ⟨hnil hempty, fun id' hid' => ?_⟩
    have hold := hle id' hid'
    have hnew := hafter hi' id'
    show count intents' id' ≤ rts'.refs id'
    rw [hl.refs]
    by_cases heq : id' = id
    · subst heq
      rw [if_pos rfl] at hnew
      rw [update_self]
      split_ifs with hc
      · omega
      · omega
    · rw [if_neg heq] at hnew
      rw [update_of_ne heq]
      omega

/-- The feed consumes the operation that writes an intent. -/
theorem Inv.consume_writeOp (h : f.Inv) (st : Settings)
    (hts : f.rts.resolvedTS < i.timestamp) (hc : f.rts.init = true → f.rts.closedTS < i.timestamp) :
    ∃ rts' b, f.rts.consume st i.writeOp = .ok (rts', b) ∧
      Leaves f.rts (f.reach i.txnID i.timestamp)
        (update f.rts.refs i.txnID (if f.rts.init ∧ (1 : Int) = -1 ∧ f.rts.refs i.txnID = 0
          then 0 else f.rts.refs i.txnID + 1)) rts' := by
  obtain ⟨r, hr, rts', b, hok, hl⟩ := h.tracks.updateTxn i.txnID i.txnKey i.txnIsoLevel
    i.txnMinTimestamp i.timestamp 1 (.inr (.inr rfl)) fun _ => ⟨hts, hc⟩
  refine ⟨rts', b, ?_, hl⟩
  have hass := assertOpAboveRTS_ok hts true
  unfold consume consumeLogicalOp Intent.writeOp incRef
  simp only [hass, hr, bind, Except.bind]
  exact hok

/-- Intents that stay do not go down. -/
theorem Inv.mem_intents (h : f.Inv) (id : UUID) (ts : Timestamp)
    (hi : i ∈ f.intents) : {} < i.timestamp ∧ i.timestamp ≤ f.reach id ts i.txnID := by
  obtain ⟨hpos, hle⟩ := h.intents i hi
  exact ⟨hpos, hle.trans (f.le_reach id i.txnID ts)⟩

theorem le_reach_self (f : Feed) (id : UUID) (ts : Timestamp) : ts ≤ f.reach id ts id := by
  unfold reach
  rw [update_self]
  exact le_max_right _ _

section

variable (h : f.Inv)
include h

theorem Inv.writeIntent (hts : f.rts.closedTS < i.timestamp) : f.Sound st (.writeIntent i) := by
  obtain ⟨rts', b, hok, hl⟩ := h.consume_writeOp st (h.tracks.resolved_le.trans_lt hts)
    fun _ => hts
  refine ⟨{ f with rts := rts', intents := i :: f.intents, reached := f.reach i.txnID i.timestamp },
    by simp only [step, hok, bind, Except.bind]; rfl, ?_, hl.resolved⟩
  have hcount : ∀ id', count (i :: f.intents) id' =
      count f.intents id' + if id' = i.txnID then 1 else 0 := by
    intro id'
    rw [count_cons]
    simp only [eq_comm]
  refine h.of_update hl (fun j hj => ?_) (fun j hj => hj) (fun _ id' => ?_) fun _ => hcount
  · rcases mem_cons.mp hj with rfl | hj
    · exact ⟨(empty_le _).trans_lt hts, f.le_reach_self _ _⟩
    · exact h.mem_intents _ _ hj
  · rw [hcount]
    omega

theorem Inv.deliver (hi : i ∈ f.left) : f.Sound st (.deliver i) := by
  obtain ⟨hpos, hle⟩ := h.left i hi
  have hno : ¬ f.rts.init = true := by
    intro hinit
    rw [(h.after hinit).1] at hi
    cases hi
  have hinit := Bool.eq_false_iff.mpr hno
  obtain ⟨rts', b, hok, hl⟩ := h.consume_writeOp st
    (by rw [(h.tracks.before hinit).2]; exact hpos) fun hi => absurd hi hno
  refine ⟨{ f with rts := rts', left := f.left.erase i },
    by simp only [step, hok, bind, Except.bind]; rfl, ?_, hl.resolved⟩
  have hleft : ∀ j ∈ f.left.erase i, j ∈ f.left := fun j hj => mem_of_mem_erase hj
  have hinv := h.of_update hl (fun j hj => h.mem_intents _ _ hj) hleft
    (fun _ id' => by rw [count_erase hi]; simp only [eq_comm]; split_ifs <;> omega)
    fun hi => absurd hi hno
  rw [f.reach_of_le hle] at hinv
  exact hinv

section

variable (hi : i ∈ f.intents)
include hi

/-- The feed counts one intent of a transaction less. -/
theorem Inv.removeIntent (hl : Leaves f.rts (f.reach i.txnID ts)
      (update f.rts.refs i.txnID (if f.rts.init ∧ (-1 : Int) = -1 ∧ f.rts.refs i.txnID = 0
        then 0 else f.rts.refs i.txnID + -1)) rts') :
    Inv { f with rts := rts', intents := f.intents.erase i, reached := f.reach i.txnID ts } := by
  have hcount : ∀ id', count (f.intents.erase i) id' =
      count f.intents id' + if id' = i.txnID then -1 else 0 := by
    intro id'
    rw [count_erase hi]
    simp only [eq_comm]
    split_ifs <;> omega
  refine h.of_update hl (fun j hj => h.mem_intents _ _ (mem_of_mem_erase hj))
    (fun j hj => hj) (fun _ id' => ?_) fun _ => hcount
  rw [hcount]
  omega

theorem Inv.updateIntent
    (hts : i.timestamp ≤ ts) : f.Sound st (.updateIntent i ts) := by
  obtain ⟨r, hr, rts', b, hok, hl⟩ := h.tracks.updateTxn i.txnID [] .serializable {} ts
    0 (.inr (.inl rfl)) fun h => by cases h
  refine ⟨{ f with rts := rts', intents := { i with timestamp := ts } :: f.intents.erase i,
                   reached := f.reach i.txnID ts }, ?_, ?_, hl.resolved⟩
  · unfold step consume consumeLogicalOp updateTS
    simp only [hr, bind, Except.bind, hok]
    rfl
  have hcount : ∀ id', count ({ i with timestamp := ts } :: f.intents.erase i) id' =
      count f.intents id' + if id' = i.txnID then 0 else 0 := by
    intro id'
    rw [count_cons, count_erase hi]
    simp
  refine h.of_update hl (fun j hj => ?_) (fun j hj => hj) (fun _ id' => ?_) fun _ => hcount
  · rcases mem_cons.mp hj with rfl | hj
    · exact ⟨(h.intents i hi).1.trans_le hts, f.le_reach_self _ _⟩
    · exact h.mem_intents _ _ (mem_of_mem_erase hj)
  · rw [hcount]
    omega

theorem Inv.abortIntent : f.Sound st (.abortIntent i) := by
  obtain ⟨r, hr, rts', b, hok, hl⟩ := h.tracks.updateTxn i.txnID [] .serializable {} {}
    (-1) (.inl rfl) fun h => by cases h
  refine ⟨{ f with rts := rts', intents := f.intents.erase i }, ?_, ?_, hl.resolved⟩
  · unfold step consume consumeLogicalOp decrRef
    simp only [hr, bind, Except.bind, hok]
    rfl
  have hinv := h.removeIntent hi hl
  rw [f.reach_of_le (empty_le _)] at hinv
  exact hinv

/-- A transaction that can commit is above the resolved timestamp. -/
theorem Inv.resolved_lt
    (ha : i.txnID ∉ f.aborted) (hts : f.reached i.txnID ≤ ts) : f.rts.resolvedTS < ts := by
  cases hinit : f.rts.init with
  | false =>
    obtain ⟨hpos, hle⟩ := h.intents i hi
    rw [(h.tracks.before hinit).2]
    exact hpos.trans_le (hle.trans hts)
  | true =>
    have hone := one_le_count hi
    have hrefs := (h.after hinit).2 i.txnID ha
    cases hv : f.rts.intentQ.view i.txnID with
    | none =>
      unfold refs at hrefs
      rw [hv] at hrefs
      change _ ≤ (0 : Int) at hrefs
      omega
    | some tc =>
      have hpos := (h.tracks.after hinit).2.1 i.txnID tc.1 tc.2 hv
      exact (h.tracks.above i.txnID tc.1 tc.2 hv hpos).trans_le
        ((h.tracks.reached i.txnID tc.1 tc.2 hv).trans hts)

theorem Inv.commitIntent
    (ha : i.txnID ∉ f.aborted) (hts : f.reached i.txnID ≤ ts) :
    f.Sound st (.commitIntent i ts) := by
  obtain ⟨r, hr, rts', b, hok, hl⟩ := h.tracks.updateTxn i.txnID [] .serializable {} ts
    (-1) (.inl rfl) fun h => by cases h
  have hass := assertOpAboveRTS_ok (h.resolved_lt hi ha hts)
  refine ⟨{ f with rts := rts', intents := f.intents.erase i, reached := f.reach i.txnID ts }, ?_,
    h.removeIntent hi hl, hl.resolved⟩
  unfold step consume consumeLogicalOp decrRef
  simp only [hass, hr, bind, Except.bind, hok]
  rfl

end

/-- An aborted transaction is dropped, but only once the queue is initialized. -/
theorem Inv.abortTxn (id : UUID) : f.Sound st (.abortTxn id) := by
  obtain ⟨rts', b, hok, hl, hother⟩ : ∃ rts' b, f.rts.consume st (.abortTxn id) = .ok (rts', b) ∧
      Leaves f.rts f.reached rts'.refs rts' ∧
      ((f.rts.init = false → rts'.refs id = f.rts.refs id) ∧
        ∀ id', id' ≠ id → rts'.refs id' = f.rts.refs id') := by
    rcases Bool.eq_false_or_eq_true f.rts.init with hinit | hinit
    rotate_left
    · obtain ⟨rts', b, hok, htracks, hle, hi, -, hq⟩ := h.tracks.settle h.tracks.settles_refl
      have hrefs := refs_congr hq
      refine ⟨rts', b, ?_, ⟨htracks, hle, hi, fun _ => rfl⟩, fun _ => hrefs id,
        fun id' _ => hrefs id'⟩
      have hop : f.rts.consumeLogicalOp st (.abortTxn id) = .ok (f.rts.intentQ, false) :=
        if_pos (by rw [hinit]; exact Bool.false_ne_true)
      unfold consume
      rw [hop]
      exact hok
    · obtain ⟨rts', b, hok, htracks, hle, hi, hrefs⟩ := h.tracks.del id
      refine ⟨rts', b, ?_, ⟨htracks, hle, hi, fun _ => rfl⟩,
        fun hi => (by rw [hinit] at hi; cases hi), ?_⟩
      · have hop : f.rts.consumeLogicalOp st (.abortTxn id) = .ok (f.rts.intentQ.del id) :=
          if_neg (not_not_intro hinit)
        unfold consume
        rw [hop]
        exact hok
      · intro id' hne
        rw [hrefs, update_of_ne hne]
  refine ⟨{ f with rts := rts', aborted := id :: f.aborted },
    by simp only [step, hok, bind, Except.bind]; rfl, ?_, hl.resolved⟩
  refine { h with
    tracks := hl.tracks
    untaken := fun ht => ⟨(h.untaken ht).1, hl.init.trans (h.untaken ht).2⟩
    before := fun hi id' => ?_
    after := fun hi => ?_ }
  · have hi' : f.rts.init = false := hl.init.symm.trans hi
    have heq : rts'.refs id' = f.rts.refs id' := by
      by_cases hid : id' = id
      · subst hid
        exact hother.1 hi'
      · exact hother.2 id' hid
    exact heq.trans (h.before hi' id')
  · obtain ⟨hleft, hle⟩ := h.after (hl.init.symm.trans hi)
    refine ⟨hleft, fun id' hid' => ?_⟩
    obtain ⟨hne, hid'⟩ := not_or.mp (mt mem_cons.mpr hid')
    show _ ≤ rts'.refs id'
    rw [hother.2 id' hne]
    exact hle id' hid'

theorem Inv.forwardClosedTS (ts : Timestamp) : f.Sound st (.forwardClosedTS ts) := by
  have hset : Settles f.rts f.reached f.rts.intentQ (f.rts.closedTS.forward ts)
      (f.rts.closedTS < ts) := by
    refine { h.tracks.settles_refl with le := ?_, same := fun hi hm => ?_ }
    · rw [forward_eq_max]
      exact le_max_left _ _
    · rw [forward_eq_max, max_eq_left (not_lt.mp (of_decide_eq_false hm))]
      exact (h.tracks.after hi).2.2.symm
  obtain ⟨rts', b, hok, htracks, hle, hi, -, hq⟩ := h.tracks.settle hset
  have hok' : f.rts.forwardClosedTS ts = .ok (rts', b) := hok
  refine ⟨{ f with rts := rts' }, by simp only [step, hok', bind, Except.bind]; rfl,
    h.of_leaves ⟨htracks, hle, hi, refs_congr hq⟩, hle⟩

theorem Inv.snapshot (ht : f.taken = none) (hc : f.Covers .snapshot) : f.Sound st .snapshot := by
  obtain ⟨hleft, hinit⟩ := h.untaken ht
  refine ⟨{ f with taken := some f.intents, left := f.intents }, rfl, ?_, le_rfl⟩
  refine { h with left := h.intents, untaken := nofun, covered := ?_, before := ?_, after := ?_ }
  · rintro _ ⟨⟩ id
    by_cases hex : ∃ i ∈ f.start, i.txnID = id
    · obtain ⟨i, hi, rfl⟩ := hex
      exact hc rfl i hi
    · have hz : count f.start id = 0 := by
        unfold count
        rw [Int.natCast_eq_zero, countP_eq_zero]
        intro i hi
        rw [decide_eq_true_iff]
        exact fun heq => hex ⟨i, hi, heq⟩
      rw [hz]
      exact count_nonneg _ _
  · intro hi id
    have hold := h.before hi id
    rw [ht, hleft] at hold
    show f.rts.refs id = count f.intents id - count f.start id +
      (count f.intents id - count f.intents id)
    change f.rts.refs id =
      count f.intents id - count f.start id + (count [] id - count [] id) at hold
    omega
  · intro hi
    rw [show f.rts.init = true from hi] at hinit
    cases hinit

/-- At the initialization no reference count is negative. -/
theorem Inv.init (ht : f.taken.isSome) (hleft : f.left = [])
    (hinit : f.rts.init = false) : f.Sound st .init := by
  obtain ⟨l, hl⟩ := Option.isSome_iff_exists.mp ht
  obtain ⟨-, hzero⟩ := h.tracks.before hinit
  -- The counts are those of the intents and what the snapshot saw more than the start.
  have hge : ∀ id, count f.intents id ≤ f.rts.refs id := by
    intro id
    have hcov := h.covered l hl id
    have hold := h.before hinit id
    rw [hl, hleft, Option.getD_some] at hold
    change _ = _ - _ + (count l id - 0) at hold
    omega
  have hpos : ∀ id t c, f.rts.intentQ.view id = some (t, c) → 0 < c := by
    intro id t c hv
    have hne := h.tracks.counted id t c hv
    have hge := (count_nonneg f.intents id).trans (hge id)
    unfold refs at hge
    rw [hv] at hge
    change 0 ≤ c at hge
    omega
  have hassert := assertOnlyPositiveRefCounts_ok hpos
  have hold : ∀ t, f.rts.intentQ.oldestTS = some t → f.rts.resolvedTS < t := by
    intro t hto
    obtain ⟨⟨id, c, hid⟩, -⟩ := exists_oldest h.tracks.wf hto
    exact h.tracks.above id t c hid (hpos id t c hid)
  let q : UnresolvedIntentQueue := { f.rts.intentQ with allowNegRefCount := false }
  have hwf : q.Wf := ⟨⟨h.tracks.wf.listed, h.tracks.wf.tracked⟩, h.tracks.wf.ordered⟩
  obtain ⟨b, hrec, -⟩ := @recompute_ok
    { f.rts with init := true, intentQ := q } rfl h.tracks.floor h.tracks.resolved_le hold
  have hok : f.rts.initRTS =
      .ok (⟨true, f.rts.closedTS, target f.rts.closedTS q.oldestTS, q⟩, b) := by
    unfold initRTS setAllowNegRefCount
    simp only [Bool.false_eq_true, not_false_eq_true, if_true, hassert, bind, Except.bind, pure,
      Except.pure]
    exact hrec
  refine ⟨{ f with rts := ⟨true, f.rts.closedTS, target f.rts.closedTS q.oldestTS, q⟩ },
    by simp only [step, hok, bind, Except.bind]; rfl, ?_, ?_⟩
  · refine { h with
      tracks := ?_
      untaken := fun hn => ?_
      before := nofun
      after := fun _ => ⟨hleft, fun id _ => hge id⟩ }
    · refine ⟨hwf, h.tracks.counted, h.tracks.reached, fun id t c hid _ => ?_, ?_, fun hi => ?_,
        fun _ => ⟨rfl, hpos, rfl⟩⟩
      · exact target_lt_view hwf
          (fun t ht => (empty_le _).trans_lt (hold t ht)) id t c hid
      · show (target f.rts.closedTS q.oldestTS).logical = 0
        cases q.oldestTS <;> rfl
      · cases hi
    · rw [show f.taken = none from hn] at hl
      cases hl
  · rw [hzero]
    exact empty_le _

/-- Every legal event is sound. -/
theorem Inv.event (st : Settings) (hl : f.Legal e) (hc : f.Covers e) : f.Sound st e := by
  cases e with
  | writeValue ts =>
    obtain ⟨rts', b, hok, hinv, hle⟩ := h.write st (.writeValue ts)
      (fun _ => rfl) hl
    exact ⟨{ f with rts := rts' }, by simp only [step, hok, bind, Except.bind]; rfl, hinv, hle⟩
  | deleteRange ts =>
    obtain ⟨rts', b, hok, hinv, hle⟩ := h.write st (.deleteRange ts)
      (fun _ => rfl) hl
    exact ⟨{ f with rts := rts' }, by simp only [step, hok, bind, Except.bind]; rfl, hinv, hle⟩
  | writeIntent i => exact h.writeIntent hl.1
  | updateIntent i ts => exact h.updateIntent hl.1 hl.2
  | commitIntent i ts => exact h.commitIntent hl.1 hl.2.1 hl.2.2
  | abortIntent i => exact h.abortIntent hl
  | abortTxn id => exact h.abortTxn id
  | forwardClosedTS ts => exact h.forwardClosedTS ts
  | snapshot => exact h.snapshot hl hc
  | deliver i => exact h.deliver hl
  | init => exact h.init hl.1 hl.2.1 hl.2.2

/-- What is published is above the resolved timestamp. -/
theorem Inv.published (hl : f.Legal e) (hts : e.published = some ts) : f.rts.resolvedTS < ts := by
  cases e with
  | writeValue | deleteRange =>
    cases hts
    exact h.tracks.resolved_le.trans_lt hl
  | commitIntent i ts' =>
    cases hts
    exact h.resolved_lt hl.1 hl.2.1 hl.2.2
  | _ => cases hts

end

theorem Step.inv (h : Step st Covers f f') (hf : f.Inv) :
    f'.Inv ∧ f.rts.resolvedTS ≤ f'.rts.resolvedTS := by
  cases h with
  | event hl hC he =>
    obtain ⟨f₁, h₁, hinv, hle⟩ := hf.event st hl hC
    rw [he] at h₁
    cases h₁
    exact ⟨hinv, hle⟩

theorem Run.inv (h : Run st Covers f f') (hf : f.Inv) :
    f'.Inv ∧ f.rts.resolvedTS ≤ f'.rts.resolvedTS := by
  induction h with
  | refl => exact ⟨hf, le_rfl⟩
  | tail _ hstep ih =>
    obtain ⟨hinv, hle⟩ := hstep.inv ih.1
    exact ⟨hinv, ih.2.trans hle⟩

/-- Resolved timestamps are sound: no legal event is fatal, the resolved timestamp never
decreases, and whatever is published after it was read is above it. -/
theorem resolved_timestamp_sound {f₀ : Feed} (h₀ : f₀.IsStart) (h : Run st Covers f₀ f)
    (h' : Run st Covers f f') (hl : f'.Legal e) (hc : f'.Covers e) :
    (∃ f'', f'.step st e = .ok f'' ∧ f.rts.get ≤ f'.rts.get ∧ f'.rts.get ≤ f''.rts.get) ∧
      ∀ ts, e.published = some ts → f.rts.get < ts := by
  obtain ⟨hf, -⟩ := h.inv h₀.inv
  obtain ⟨hf', hle⟩ := h'.inv hf
  obtain ⟨f'', hok, -, hle'⟩ := hf'.event st hl hc
  exact ⟨⟨f'', hok, hle, hle'⟩, fun ts hts => hle.trans_lt (hf'.published hl hts)⟩

/-- Nothing is held back: once it is initialized, the resolved timestamp is the latest one
without a logical part that is closed and below every transaction in the queue. -/
theorem resolved_timestamp_exact {f₀ : Feed} (h₀ : f₀.IsStart) (h : Run st Covers f₀ f)
    (hinit : f.rts.init = true) :
    (f.rts.get.logical = 0 ∧ f.rts.get ≤ f.rts.closedTS ∧
      ∀ id t c, f.rts.intentQ.view id = some (t, c) → f.rts.get < t) ∧
    ∀ ts : Timestamp, ts.logical = 0 → ts ≤ f.rts.closedTS →
      (∀ id t c, f.rts.intentQ.view id = some (t, c) → ts < t) → ts ≤ f.rts.get := by
  obtain ⟨hf, -⟩ := h.inv h₀.inv
  obtain ⟨-, hpos, htarget⟩ := hf.tracks.after hinit
  refine ⟨⟨hf.tracks.floor, hf.tracks.resolved_le,
    fun id t c hid => hf.tracks.above id t c hid (hpos id t c hid)⟩, fun ts hl hc hlt => ?_⟩
  show ts ≤ f.rts.resolvedTS
  rw [htarget]
  refine le_target hl hc fun t ht => ?_
  obtain ⟨⟨id, c, hid⟩, -⟩ := exists_oldest hf.tracks.wf ht
  exact hlt id t c hid

/-! ## One transaction -/

/-- The feed after the given events, if they are all legal, all meet `C` and none is fatal. -/
def perform (st : ResolvedTimestamp.Settings) (C : Feed → Event → Prop)
    [∀ f e, Decidable (C f e)] (f : Feed) : List Event → Option Feed
  | [] => some f
  | e :: es =>
    if f.Legal e ∧ C f e then
      match f.step st e with
      | .ok f' => perform st C f' es
      | .error _ => none
    else none

theorem run_of_perform {C : Feed → Event → Prop} [∀ f e, Decidable (C f e)] :
    ∀ {es : List Event} {f f' : Feed}, perform st C f es = some f' → Run st C f f'
  | [], f, f', h => by
    cases h
    exact .refl
  | e :: es, f, f', h => by
    unfold perform at h
    split_ifs at h with hl
    cases he : f.step st e with
    | error p =>
      rw [he] at h
      cases h
    | ok f₁ =>
      rw [he] at h
      exact .head (.event hl.1 hl.2 he) (run_of_perform h)

/-- An intent at timestamp 5. -/
def oldIntent : Intent := { key := [1], txnID := 7, timestamp := ⟨5, 0⟩ }

/-- A range with that intent at the start of the stream. -/
def oldRange : Feed where
  intents := [oldIntent]
  reached := Function.update (fun _ => {}) 7 ⟨5, 0⟩
  start := [oldIntent]

theorem oldRange_isStart : oldRange.IsStart := by
  exact ⟨rfl, rfl, rfl, rfl, forall_mem_singleton.mpr ⟨by decide, by decide⟩⟩

/-- The snapshot is taken after an intent was committed: the commit is counted, the intent
is not. -/
theorem resolved_timestamp_late_snapshot : ∃ f, Run {} (fun _ _ => True) oldRange f ∧
    f.Legal .init ∧ f.step {} .init = .error .negativeRefCount := by
  have hrun : ((perform {} (fun _ _ => True) oldRange
      [.commitIntent oldIntent ⟨5, 0⟩, .snapshot]).map fun f =>
        (decide (f.Legal .init), (f.step {} .init).map fun _ => ())) =
      some (true, .error .negativeRefCount) := by decide +kernel
  obtain ⟨f, hf, hobs⟩ := Option.map_eq_some_iff.mp hrun
  obtain ⟨hl, hact⟩ := Prod.mk.inj hobs
  exact ⟨f, run_of_perform hf, of_decide_eq_true hl, Lib.map_eq_error.mp hact⟩

/-- The snapshot is taken first, the closed timestamp is beyond the intent, and 4 is
resolved before the intent is committed. -/
theorem resolved_timestamp_sound_oldRange : ∃ f f', oldRange.IsStart ∧
    Run {} Covers oldRange f ∧ Run {} Covers f f' ∧ f.rts.get = ⟨4, 0⟩ ∧
    f'.Legal (.commitIntent oldIntent ⟨5, 0⟩) ∧ f'.Covers (.commitIntent oldIntent ⟨5, 0⟩) ∧
    (∃ f'', f'.step {} (.commitIntent oldIntent ⟨5, 0⟩) = .ok f'' ∧ f.rts.get ≤ f'.rts.get ∧
      f'.rts.get ≤ f''.rts.get) ∧
    ∀ ts, (Event.commitIntent oldIntent ⟨5, 0⟩).published = some ts → f.rts.get < ts := by
  have hrun : ((perform {} Covers oldRange
      [.snapshot, .deliver oldIntent, .forwardClosedTS ⟨9, 3⟩, .init]).bind fun f =>
        (perform {} Covers f [.writeValue ⟨10, 0⟩]).map fun f' =>
          (f.rts.get, decide (f'.Legal (.commitIntent oldIntent ⟨5, 0⟩)),
            decide (f'.Covers (.commitIntent oldIntent ⟨5, 0⟩)))) =
      some (⟨4, 0⟩, true, true) := by decide +kernel
  obtain ⟨f, hf, hrun⟩ := Option.bind_eq_some_iff.mp hrun
  obtain ⟨f', hf', hobs⟩ := Option.map_eq_some_iff.mp hrun
  obtain ⟨hget, hobs⟩ := Prod.mk.inj hobs
  obtain ⟨hl, hc⟩ := Prod.mk.inj hobs
  exact ⟨f, f', oldRange_isStart, run_of_perform hf, run_of_perform hf', hget,
    of_decide_eq_true hl, of_decide_eq_true hc,
    resolved_timestamp_sound oldRange_isStart (run_of_perform hf) (run_of_perform hf')
      (of_decide_eq_true hl) (of_decide_eq_true hc)⟩

/-- The closed timestamp is 9 and a transaction is at 5, so that 4 is resolved. -/
theorem resolved_timestamp_exact_oldRange : ∃ f, Run {} Covers oldRange f ∧
    (f.rts.closedTS, f.rts.get) = (⟨9, 3⟩, ⟨4, 0⟩) ∧
    ∀ ts : Timestamp, ts.logical = 0 → ts ≤ f.rts.closedTS →
      (∀ id t c, f.rts.intentQ.view id = some (t, c) → ts < t) → ts ≤ f.rts.get := by
  have hrun : ((perform {} Covers oldRange
      [.snapshot, .deliver oldIntent, .forwardClosedTS ⟨9, 3⟩, .init]).map fun f =>
        (f.rts.init, f.rts.closedTS, f.rts.get)) = some (true, ⟨9, 3⟩, ⟨4, 0⟩) := by
    decide +kernel
  obtain ⟨f, hf, hobs⟩ := Option.map_eq_some_iff.mp hrun
  obtain ⟨hinit, hobs⟩ := Prod.mk.inj hobs
  exact ⟨f, run_of_perform hf, hobs,
    (resolved_timestamp_exact oldRange_isStart (run_of_perform hf) hinit).2⟩

end Feed

end Cockroach.Rangefeed
