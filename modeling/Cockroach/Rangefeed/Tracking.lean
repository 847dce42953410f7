import Cockroach.Rangefeed.IntentQueue

/-!
# What the feed tracks

Once it is initialized the resolved timestamp is always the one that follows from the
closed timestamp and the oldest transaction (`target`): what is recomputed after a call
is that (`settle_after`), and calls that say they have not moved it have not
(`Settles.same`). Every transaction in the queue is above it, and at or below the
timestamps that it has reached (`Tracks`).
-/

namespace Cockroach.Rangefeed

open Lib Hlc Function UnresolvedIntentQueue Timestamp

/-! ## The timestamp that can be resolved -/

/-- The last wall time that is below `t` as a whole, or its own. -/
def below (t : Timestamp) : Nat := if 0 < t.logical then t.wallTime else t.wallTime - 1

/-- The resolved timestamp for a closed timestamp and an oldest transaction. -/
def target (closed : Timestamp) : Option Timestamp → Timestamp
  | none => { wallTime := closed.wallTime }
  | some t => { wallTime := min closed.wallTime (below t) }

@[simp] theorem target_none (closed : Timestamp) :
    target closed none = { wallTime := closed.wallTime } := rfl

@[simp] theorem target_some (closed t : Timestamp) :
    target closed (some t) = { wallTime := min closed.wallTime (below t) } := rfl

theorem le_below {r t : Timestamp} (h : r < t) : r.wallTime ≤ below t := by
  rw [lt_def] at h
  unfold below
  split_ifs with hl <;> omega

theorem below_mono {t t' : Timestamp} (h : t ≤ t') : below t ≤ below t' := by
  rw [le_def] at h
  unfold below
  split_ifs <;> omega

theorem below_lt {t : Timestamp} (h : {} < t) : (⟨below t, 0⟩ : Timestamp) < t := by
  rw [lt_def] at h ⊢
  change 0 < t.wallTime ∨ 0 = t.wallTime ∧ 0 < t.logical at h
  show below t < t.wallTime ∨ below t = t.wallTime ∧ 0 < t.logical
  unfold below
  split_ifs with hl <;> omega

theorem target_le (closed : Timestamp) (o : Option Timestamp) : target closed o ≤ closed := by
  cases o with
  | none => exact wall_le.mpr le_rfl
  | some t => exact wall_le.mpr (min_le_left _ _)

theorem target_lt {closed t : Timestamp} (h : {} < t) : target closed (some t) < t :=
  lt_of_le_of_lt (wall_le.mpr (min_le_right _ _)) (below_lt h)

/-- Whatever is resolved stays below the target. -/
theorem le_target {r closed : Timestamp} {o : Option Timestamp} (hr : r.logical = 0)
    (hc : r ≤ closed) (ho : ∀ t, o = some t → r < t) : r ≤ target closed o := by
  obtain ⟨w, l⟩ := r
  obtain rfl : l = 0 := hr
  rw [wall_le] at hc
  cases o with
  | none => exact wall_le.mpr hc
  | some t => exact wall_le.mpr (le_min hc (le_below (ho t rfl)))

/-- A transaction above the closed timestamp does not hold anything back. -/
theorem target_add {closed ts : Timestamp} (h : closed < ts) {v : UUID → Option (Timestamp × Int)}
    {id : UUID} {c : Int} (hid : v id = none) {o o' : Option Timestamp} (ho : IsOldest v o)
    (ho' : IsOldest (update v id (some (ts, c))) o') :
    target closed o' = target closed o := by
  have hb := le_below h
  cases o' with
  | none =>
    have := ho' id
    rw [update_self] at this
    cases this
  | some t' =>
    obtain ⟨⟨id', c', hid'⟩, hle'⟩ := ho'
    have hor : t' = ts ∨ v id' = some (t', c') := by
      by_cases hi : id' = id
      · subst hi
        rw [update_self] at hid'
        cases hid'
        exact .inl rfl
      · rw [update_of_ne hi] at hid'
        exact .inr hid'
    cases o with
    | none =>
      have heq : t' = ts := hor.resolve_right (by rw [ho id']; exact nofun)
      rw [heq, target_some, target_none, min_eq_left hb]
    | some t =>
      obtain ⟨⟨id₁, c₁, hid₁⟩, hle⟩ := ho
      have ht : t' ≤ t := by
        refine hle' id₁ t c₁ ?_
        rw [update_of_ne (by rintro rfl; rw [hid] at hid₁; cases hid₁)]
        exact hid₁
      have hbt := below_mono ht
      rcases hor with rfl | hold
      · rw [target_some, target_some, min_eq_left hb, min_eq_left (hb.trans hbt)]
      · rw [le_antisymm ht (hle id' t' c' hold)]

namespace ResolvedTimestamp

variable {rts : ResolvedTimestamp}

/-- Recomputing an initialized resolved timestamp. -/
theorem recompute_ok (hinit : rts.init = true) (hr : rts.resolvedTS.logical = 0)
    (hc : rts.resolvedTS ≤ rts.closedTS)
    (ho : ∀ t, rts.intentQ.oldestTS = some t → rts.resolvedTS < t) :
    ∃ b, rts.recompute =
      .ok ({ rts with resolvedTS := target rts.closedTS rts.intentQ.oldestTS }, b) ∧
      (target rts.closedTS rts.intentQ.oldestTS = rts.resolvedTS → b = false) := by
  have hle := le_target hr hc ho
  have hbound : ∃ newTS, rts.lowerBound = .ok newTS ∧
      ({ newTS with logical := 0 } : Timestamp) = target rts.closedTS rts.intentQ.oldestTS := by
    unfold lowerBound oldestTS
    cases hold : rts.intentQ.oldest with
    | none => exact ⟨_, rfl, rfl⟩
    | some txn =>
      have hlt : rts.resolvedTS < txn.timestamp := by
        refine ho _ ?_
        unfold oldestTS
        rw [hold]
        rfl
      have hpos : {} < txn.timestamp := (empty_le _).trans_lt hlt
      have hprev : ∃ p, txn.timestamp.prev = some p ∧ p.wallTime = below txn.timestamp := by
        rw [lt_def] at hpos
        change 0 < txn.timestamp.wallTime ∨ 0 = txn.timestamp.wallTime ∧ 0 < txn.timestamp.logical
          at hpos
        unfold prev below
        by_cases hl : 0 < txn.timestamp.logical
        · rw [if_pos hl, if_pos hl]
          exact ⟨_, rfl, rfl⟩
        · rw [if_neg hl, if_neg hl, if_pos (by omega)]
          exact ⟨_, rfl, rfl⟩
      obtain ⟨p, hp, hwall⟩ := hprev
      refine ⟨rts.closedTS.backward p, ?_, ?_⟩
      · dsimp only
        rw [if_neg (not_le.mpr hlt), hp]
        rfl
      · show _ = target rts.closedTS (some txn.timestamp)
        unfold backward
        rw [target_some, ← hwall]
        ext
        · show (if p < rts.closedTS then p else rts.closedTS).wallTime = min _ _
          split_ifs with h
          · rw [lt_def] at h
            omega
          · rw [not_lt, le_def] at h
            omega
        · rfl
  obtain ⟨newTS, hnew, hfloor⟩ := hbound
  refine ⟨decide (rts.resolvedTS < target rts.closedTS rts.intentQ.oldestTS), ?_, fun heq => ?_⟩
  · unfold recompute
    rw [hinit, hnew]
    simp only [not_true_eq_false, if_false, if_neg (not_lt.mpr hc), bind, Except.bind, pure,
      Except.pure, hfloor, if_neg (not_lt.mpr hle), forward_eq_max, max_eq_right hle]
  · rw [heq]
    exact decide_eq_false (lt_irrefl _)

/-- Before the initialization nothing is computed. -/
theorem settle_before (hinit : rts.init = false) (b : Bool) : rts.settle b = .ok (rts, false) := by
  have hrec : rts.recompute = .ok (rts, false) := by
    unfold recompute
    rw [hinit]
    rfl
  unfold settle assertNoChange
  rw [hrec]
  cases b with
  | true => rfl
  | false =>
    simp only [Bool.false_eq_true, if_false, bind, Except.bind, ne_eq, not_true_eq_false, or_self]
    rfl

/-- Afterwards it is the target, and if it was not to move it has not. -/
theorem settle_after (hinit : rts.init = true) (hr : rts.resolvedTS.logical = 0)
    (hc : rts.resolvedTS ≤ rts.closedTS)
    (ho : ∀ t, rts.intentQ.oldestTS = some t → rts.resolvedTS < t) {moved : Bool}
    (hmoved : moved = false → target rts.closedTS rts.intentQ.oldestTS = rts.resolvedTS) :
    ∃ b, rts.settle moved =
      .ok ({ rts with resolvedTS := target rts.closedTS rts.intentQ.oldestTS }, b) := by
  obtain ⟨b, hrec, hb⟩ := recompute_ok hinit hr hc ho
  unfold settle
  cases moved with
  | true => exact ⟨b, hrec⟩
  | false =>
    have heq := hmoved rfl
    refine ⟨false, ?_⟩
    unfold assertNoChange
    rw [hrec, hb heq, heq]
    simp only [Bool.false_eq_true, if_false, bind, Except.bind, ne_eq, not_true_eq_false, or_self]
    rfl

/-- How many intents of a transaction are counted. -/
def refs (rts : ResolvedTimestamp) (id : UUID) : Int := ((rts.intentQ.view id).map Prod.snd).getD 0

/-- What the feed keeps of the transactions, where `reached` is the largest timestamp
that each has had. -/
structure Tracks (rts : ResolvedTimestamp) (reached : UUID → Timestamp) : Prop where
  wf : rts.intentQ.Wf
  counted : ∀ id t c, rts.intentQ.view id = some (t, c) → c ≠ 0
  reached : ∀ id t c, rts.intentQ.view id = some (t, c) → t ≤ reached id
  above : ∀ id t c, rts.intentQ.view id = some (t, c) → 0 < c → rts.resolvedTS < t
  floor : rts.resolvedTS.logical = 0
  before : rts.init = false → rts.intentQ.allowNegRefCount = true ∧ rts.resolvedTS = {}
  after : rts.init = true → rts.intentQ.allowNegRefCount = false ∧
    (∀ id t c, rts.intentQ.view id = some (t, c) → 0 < c) ∧
    rts.resolvedTS = target rts.closedTS rts.intentQ.oldestTS

variable {reached : UUID → Timestamp}

theorem Tracks.resolved_le (h : Tracks rts reached) : rts.resolvedTS ≤ rts.closedTS := by
  cases hinit : rts.init with
  | false =>
    rw [(h.before hinit).2]
    exact empty_le _
  | true =>
    rw [(h.after hinit).2.2]
    exact target_le _ _

/-- What a queue must be for a step to settle. -/
structure Settles (rts : ResolvedTimestamp) (reached : UUID → Timestamp)
    (q : UnresolvedIntentQueue) (closed : Timestamp) (moved : Bool) : Prop where
  wf : q.Wf
  allow : q.allowNegRefCount = rts.intentQ.allowNegRefCount
  counted : ∀ id t c, q.view id = some (t, c) → c ≠ 0
  reached : ∀ id t c, q.view id = some (t, c) → t ≤ reached id
  above : ∀ id t c, q.view id = some (t, c) → 0 < c → rts.resolvedTS < t
  positive : rts.init = true → ∀ id t c, q.view id = some (t, c) → 0 < c
  le : rts.closedTS ≤ closed
  same : rts.init = true → moved = false → target closed q.oldestTS = rts.resolvedTS

variable {q : UnresolvedIntentQueue}

/-- The oldest timestamp is that of a transaction. -/
theorem exists_oldest (h : q.Wf) {t : Timestamp} (ht : q.oldestTS = some t) :
    (∃ id c, q.view id = some (t, c)) ∧ ∀ id t' c, q.view id = some (t', c) → t ≤ t' := by
  have := h.oldest_isOldest
  unfold oldestTS at ht
  rw [ht] at this
  exact this

/-- The target is below every transaction that is tracked. -/
theorem target_lt_view {closed : Timestamp} (h : q.Wf) (hpos : ∀ t, q.oldestTS = some t → {} < t) :
    ∀ id t c, q.view id = some (t, c) → target closed q.oldestTS < t := by
  intro id t c hid
  cases ho : q.oldestTS with
  | none =>
    have hnone := h.oldest_isOldest
    unfold oldestTS at ho
    rw [ho] at hnone
    rw [hnone id] at hid
    cases hid
  | some t₀ =>
    exact (target_lt (hpos t₀ ho)).trans_le ((exists_oldest h ho).2 id t c hid)

theorem Tracks.settle (h : Tracks rts reached) {reached' : UUID → Timestamp} {closed : Timestamp}
    {moved : Bool} (hs : Settles rts reached' q closed moved) :
    ∃ rts' b, ResolvedTimestamp.settle { rts with intentQ := q, closedTS := closed } moved =
        .ok (rts', b) ∧ Tracks rts' reached' ∧ rts.resolvedTS ≤ rts'.resolvedTS ∧
      rts'.init = rts.init ∧ rts'.closedTS = closed ∧ rts'.intentQ = q := by
  rcases Bool.eq_false_or_eq_true rts.init with hinit | hinit
  rotate_left
  · refine ⟨_, _, @settle_before { rts with intentQ := q, closedTS := closed } hinit moved, ?_,
      le_rfl, rfl, rfl, rfl⟩
    refine ⟨hs.wf, hs.counted, hs.reached, hs.above, h.floor, fun _ => ?_, fun hi => ?_⟩
    · exact ⟨hs.allow.trans (h.before hinit).1, (h.before hinit).2⟩
    · rw [hinit] at hi
      cases hi
  · have hpos := hs.positive hinit
    have hold : ∀ t, q.oldestTS = some t → rts.resolvedTS < t := by
      intro t ht
      obtain ⟨⟨id, c, hid⟩, -⟩ := exists_oldest hs.wf ht
      exact hs.above id t c hid (hpos id t c hid)
    have hle : rts.resolvedTS ≤ closed := h.resolved_le.trans hs.le
    obtain ⟨b, hok⟩ := @settle_after { rts with intentQ := q, closedTS := closed } hinit h.floor hle
      hold moved (hs.same hinit)
    refine ⟨_, _, hok, ?_, le_target h.floor hle hold, rfl, rfl, rfl⟩
    have habove := @target_lt_view q closed hs.wf
      fun t ht => (empty_le _).trans_lt (hold t ht)
    refine ⟨hs.wf, hs.counted, hs.reached, fun id t c hid _ => habove id t c hid, ?_,
      fun hi => ?_, fun _ => ?_⟩
    · show (target closed q.oldestTS).logical = 0
      cases q.oldestTS <;> rfl
    · rw [show _ = true from hinit] at hi
      cases hi
    · exact ⟨hs.allow.trans (h.after hinit).1, hpos, rfl⟩

/-- Nothing has changed. -/
theorem Tracks.settles_refl (h : Tracks rts reached) :
    Settles rts reached rts.intentQ rts.closedTS false :=
  { h with
    allow := rfl
    positive := fun hi => (h.after hi).2.1
    le := le_rfl
    same := fun hi _ => (h.after hi).2.2.symm }

theorem Tracks.settles_updated (h : Tracks rts reached) {reached' : UUID → Timestamp} {id : UUID}
    {v : Option (Timestamp × Int)} {r : UnresolvedIntentQueue × Bool}
    (hr : Updated rts.intentQ id v r) (hmono : ∀ id, reached id ≤ reached' id)
    (hcounted : ∀ t c, v = some (t, c) → c ≠ 0)
    (hreached : ∀ t c, v = some (t, c) → t ≤ reached' id)
    (habove : ∀ t c, v = some (t, c) → 0 < c → rts.resolvedTS < t)
    (hpos : rts.init = true → ∀ t c, v = some (t, c) → 0 < c)
    (hnew : rts.init = true → rts.intentQ.view id = none → ∀ t c, v = some (t, c) →
      rts.closedTS < t) :
    Settles rts reached' r.1 rts.closedTS r.2 := by
  have hcases : ∀ {P : UUID → Timestamp → Int → Prop},
      (∀ t c, v = some (t, c) → P id t c) →
      (∀ id t c, rts.intentQ.view id = some (t, c) → P id t c) →
      ∀ id' t c, r.1.view id' = some (t, c) → P id' t c := by
    intro P hv hold id' t c hid'
    rw [hr.view] at hid'
    by_cases heq : id' = id
    · subst heq
      rw [update_self] at hid'
      exact hv t c hid'
    · rw [update_of_ne heq] at hid'
      exact hold id' t c hid'
  constructor
  case wf => exact hr.wf
  case allow => exact hr.allowNegRefCount
  case counted => exact hcases (P := fun _ _ c => c ≠ 0) hcounted h.counted
  case reached =>
    exact hcases (P := fun id t _ => t ≤ reached' id) hreached
      fun id t c hid => (h.reached id t c hid).trans (hmono id)
  case above => exact hcases (P := fun _ t c => 0 < c → rts.resolvedTS < t) habove h.above
  case positive =>
    exact fun hi => hcases (P := fun _ _ c => 0 < c) (hpos hi) (h.after hi).2.1
  case le => exact le_rfl
  case same =>
    intro hi hm
    rw [(h.after hi).2.2]
    rcases hr.same hm with hsame | hnone
    · rw [hsame]
    · have hnew' := hr.wf.oldest_isOldest
      rw [hr.view] at hnew'
      cases hv : v with
      | none =>
        rw [hv, ← hnone, update_eq_self] at hnew'
        rw [show r.1.oldestTS = rts.intentQ.oldestTS from
          hnew'.unique h.wf.oldest_isOldest]
      | some tc =>
        rw [hv] at hnew'
        exact target_add (hnew hi hnone tc.1 tc.2 hv) hnone h.wf.oldest_isOldest hnew'

/-- What a call leaves: the timestamps reached, and the reference counts. -/
structure Leaves (rts : ResolvedTimestamp) (reached : UUID → Timestamp) (refs' : UUID → Int)
    (rts' : ResolvedTimestamp) : Prop where
  tracks : Tracks rts' reached
  resolved : rts.resolvedTS ≤ rts'.resolvedTS
  init : rts'.init = rts.init
  refs : ∀ id, rts'.refs id = refs' id

/-- The counts once one transaction has been updated. -/
theorem refs_updated {rts' : ResolvedTimestamp} {id : UUID} {v : Option (Timestamp × Int)}
    {r : UnresolvedIntentQueue × Bool} (hr : Updated rts.intentQ id v r)
    (hq : rts'.intentQ = r.1) (id' : UUID) :
    rts'.refs id' = update rts.refs id ((v.map Prod.snd).getD 0) id' := by
  unfold refs
  rw [hq, hr.view]
  by_cases heq : id' = id
  · subst heq
    rw [update_self, update_self]
  · rw [update_of_ne heq, update_of_ne heq]

/-- One more, one less or a later timestamp. -/
theorem Tracks.updateTxn (h : Tracks rts reached) (id : UUID) (key : List UInt8) (level : Level)
    (minTS ts : Timestamp) (delta : Int) (hd : delta = -1 ∨ delta = 0 ∨ delta = 1)
    (hnew : delta = 1 → rts.resolvedTS < ts ∧ (rts.init = true → rts.closedTS < ts)) :
    ∃ r, rts.intentQ.updateTxn id key level minTS ts delta = .ok r ∧
      ∃ rts' b, ResolvedTimestamp.settle { rts with intentQ := r.1 } r.2 = .ok (rts', b) ∧
        Leaves rts (update reached id (max (reached id) ts)) (update rts.refs id
            (if rts.init ∧ delta = -1 ∧ rts.refs id = 0 then 0 else rts.refs id + delta)) rts' := by
  obtain ⟨r, hr, hup⟩ := h.wf.updateTxn id key level minTS ts hd
  refine ⟨r, hr, ?_⟩
  generalize hv : bump rts.intentQ.allowNegRefCount ts delta (rts.intentQ.view id) = v at hup
  have hmono : ∀ id', reached id' ≤ update reached id (max (reached id) ts) id' := by
    intro id'
    by_cases heq : id' = id
    · subst heq
      rw [update_self]
      exact le_max_left _ _
    · rw [update_of_ne heq]
  have hinit : rts.init = true → rts.intentQ.allowNegRefCount = false := fun hi => (h.after hi).1
  have hallow : rts.init = false → rts.intentQ.allowNegRefCount = true := fun hi => (h.before hi).1
  -- What becomes of the transaction, case by case.
  have hcase : (∀ t c, v = some (t, c) → c ≠ 0 ∧ t ≤ max (reached id) ts ∧
        (0 < c → rts.resolvedTS < t) ∧ (rts.init = true → 0 < c) ∧
        (rts.init = true → rts.intentQ.view id = none → rts.closedTS < t)) ∧
      (v.map Prod.snd).getD 0 =
        if rts.init ∧ delta = -1 ∧ rts.refs id = 0 then 0 else rts.refs id + delta := by
    unfold refs
    subst hv
    cases hview : rts.intentQ.view id with
    | none =>
      simp only [bump, Option.map_none, Option.getD_none]
      rcases hd with rfl | rfl | rfl
      · -- One less of what is not there counts only before the initialization.
        rcases Bool.eq_false_or_eq_true rts.init with hi | hi
        · rw [hinit hi]
          simp [hi]
        · rw [hallow hi]
          refine ⟨?_, by simp [hi]⟩
          intro t c hc
          simp at hc
          obtain ⟨rfl, rfl⟩ := hc
          refine ⟨by omega, le_max_right _ _, fun h => by omega, fun h => ?_, fun h => ?_⟩ <;>
          · rw [hi] at h
            cases h
      · simp
      · obtain ⟨h1, h2⟩ := hnew rfl
        refine ⟨?_, by simp⟩
        intro t c hc
        simp at hc
        obtain ⟨rfl, rfl⟩ := hc
        exact ⟨one_ne_zero, le_max_right _ _, fun _ => h1, fun _ => one_pos, fun hi _ => h2 hi⟩
    | some tc =>
      obtain ⟨t, c⟩ := tc
      have hc := h.counted id t c hview
      have ht := h.reached id t c hview
      have hab := h.above id t c hview
      simp only [bump, Option.map_some, Option.getD_some]
      rw [if_neg (show ¬ (rts.init = true ∧ delta = -1 ∧ c = 0) from fun h => hc h.2.2)]
      by_cases hz : c + delta = 0
      · rw [if_pos hz]
        refine ⟨fun t' c' hc' => ?_, hz.symm⟩
        cases hc'
      · rw [if_neg hz]
        refine ⟨fun t' c' hc' => ?_, rfl⟩
        obtain ⟨rfl, rfl⟩ := Prod.mk.inj (Option.some.inj hc')
        refine ⟨hz, max_le_max ht le_rfl, fun hpos => ?_, fun hi => ?_, fun _ hn => ?_⟩
        · exact (hab (by omega)).trans_le (le_max_left _ _)
        · have := (h.after hi).2.1 id t c hview
          omega
        · cases hn
  obtain ⟨hcase, hrefs⟩ := hcase
  have hset := h.settles_updated hup hmono (fun t c hv => (hcase t c hv).1)
    (fun t c hv => by rw [update_self]; exact (hcase t c hv).2.1)
    (fun t c hv => (hcase t c hv).2.2.1) (fun hi t c hv => (hcase t c hv).2.2.2.1 hi)
    (fun hi hn t c hv => (hcase t c hv).2.2.2.2 hi hn)
  obtain ⟨rts', b, hok, htracks, hle, hi, -, hq⟩ := h.settle hset
  rw [← hrefs]
  exact ⟨rts', b, hok, htracks, hle, hi, refs_updated hup hq⟩

/-- A transaction is dropped. -/
theorem Tracks.del (h : Tracks rts reached) (id : UUID) : ∃ rts' b,
    ResolvedTimestamp.settle { rts with intentQ := (rts.intentQ.del id).1 } (rts.intentQ.del id).2 =
        .ok (rts', b) ∧
      Leaves rts reached (update rts.refs id 0) rts' := by
  have hup := h.wf.del id
  have hnone : ∀ {P : Timestamp → Int → Prop} (t : Timestamp) (c : Int),
      (none : Option (Timestamp × Int)) = some (t, c) → P t c := by
    intro P t c hc
    cases hc
  obtain ⟨rts', b, hok, htracks, hle, hi, -, hq⟩ := h.settle
    (h.settles_updated hup (fun _ => le_rfl) hnone hnone hnone (fun _ => hnone) fun _ _ => hnone)
  exact ⟨rts', b, hok, htracks, hle, hi, refs_updated hup hq⟩

end ResolvedTimestamp

end Cockroach.Rangefeed
