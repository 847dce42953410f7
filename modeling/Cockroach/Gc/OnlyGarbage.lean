import Cockroach.Gc.Batcher
import Cockroach.Lib.Outcome

/-!
# Only garbage is removed

Calls that come in the order of a walk (`Delivered`) lead to requests that cover nothing
but garbage, under any thresholds and whatever the `GCer` answers.

* A point request carries a version that was reported as garbage, and the older versions
  of its key are garbage too (`Delivered.older_garbage`).
* A clear range starts at the last version reported. What comes later in the walk lies
  before its start; what came earlier and lies before its end is garbage (`Inv.ended`),
  since data that is not garbage moves the end down to its own key.
-/

namespace Cockroach.Gc

open Lib Hlc Storage List GcKeyBatcher

/-- Calls in the order of the walk: keys descend, the versions of a key ascend, the
garbage versions of a key come first, and the last version of a key is told. -/
structure Delivered (cs : List Call) : Prop where
  descending : cs.Pairwise fun c d => d.cur.key < c.cur.key
  closed : cs.Pairwise fun c d =>
    c.cur.key.key = d.cur.key.key → d.garbage = true → c.garbage = true
  newest : cs.IsChain fun c d => c.isNewestPoint = true ↔ d.cur.key.key ≠ c.cur.key.key
  values : ∀ c ∈ cs, c.garbage = true → c.cur.key.isValue = true

/-- What a request covers was reported as garbage. -/
def Sound (cs : List Call) (r : GCRequest) : Prop :=
  ∀ c ∈ cs, r.Covers c.cur.key → c.garbage = true

/-- The version at `p` was reported as garbage. -/
def Reported (cs : List Call) (p : GCKey) : Prop :=
  ∃ c ∈ cs, c.garbage = true ∧ c.cur.key = ⟨p.key, p.timestamp⟩

variable {cs past rest : List Call} {cur : Call}

/-- Of two calls one comes first. -/
theorem Delivered.ordered (h : Delivered cs) {c d : Call} (hc : c ∈ cs) (hd : d ∈ cs)
    (hlt : c.cur.key ≤ d.cur.key) : c = d ∨
      (d.cur.key.key = c.cur.key.key → c.garbage = true → d.garbage = true) := by
  let R : Call → Call → Prop := fun c d => d.cur.key < c.cur.key ∧
    (c.cur.key.key = d.cur.key.key → d.garbage = true → c.garbage = true)
  have hsym : cs.Pairwise fun c d => R c d ∨ R d c := (h.descending.and h.closed).imp Or.inl
  have : Std.Symm fun c d : Call => R c d ∨ R d c := ⟨fun _ _ => Or.symm⟩
  by_cases heq : c = d
  · exact .inl heq
  · rcases hsym.forall hc hd heq with ⟨hgt, -⟩ | ⟨-, hcl⟩
    · exact absurd hlt (not_le.mpr hgt)
    · exact .inr hcl

/-- The versions of a key at or below a garbage one are garbage. -/
theorem Delivered.older_garbage (h : Delivered cs) {c d : Call} (hc : c ∈ cs) (hd : d ∈ cs)
    (hkey : d.cur.key.key = c.cur.key.key) (hle : c.cur.key ≤ d.cur.key)
    (hg : c.garbage = true) : d.garbage = true := by
  rcases h.ordered hc hd hle with rfl | hcl
  · exact hg
  · exact hcl hkey hg

theorem Delivered.points_sound (h : Delivered cs) {keys : List GCKey}
    (hk : ∀ p ∈ keys, Reported cs p) : Sound cs (.points keys) := by
  rintro d hd ⟨hv, p, hp, hkey, hts⟩
  obtain ⟨c, hc, hg, heq⟩ := hk p hp
  have hsame : d.cur.key.key = c.cur.key.key := by rw [heq, ← hkey]
  refine h.older_garbage hc hd hsame (not_lt.mp fun hlt => ?_) hg
  rw [MVCCKey.lt_version_iff hsame hv (h.values c hc hg), heq] at hlt
  exact absurd hts (not_le.mpr hlt)

/-- What is known of a call that follows others. -/
theorem Delivered.next (h : Delivered (past.reverse ++ cur :: rest)) :
    (∀ c ∈ past, cur.cur.key < c.cur.key) ∧
      (∀ c ∈ past, c.cur.key.key = cur.cur.key.key → cur.garbage = true → c.garbage = true) ∧
      ∀ c ∈ past.head?, c.isNewestPoint = true ↔ cur.cur.key.key ≠ c.cur.key.key := by
  refine ⟨fun c hc => ?_, fun c hc => ?_, fun c hc => ?_⟩
  · exact (pairwise_append.mp h.descending).2.2 c (mem_reverse.mpr hc) cur mem_cons_self
  · exact (pairwise_append.mp h.closed).2.2 c (mem_reverse.mpr hc) cur mem_cons_self
  · refine (isChain_append.mp h.newest).2.2 c ?_ cur rfl
    rw [getLast?_reverse]
    exact hc

/-! ## Flushing -/

section Flush

variable {th : GcKeyBatcherThresholds} {gcer : GCer} {b b' : GcKeyBatcher} {batch : PointsBatch}

/-- A collection that stops has passed on sound requests. -/
abbrev StopsSound (cs : List Call) (e : Stopped) : Prop := ∀ r ∈ e.requests, Sound cs r

/-- All that is pending was reported, and the requests so far are sound. -/
structure Holds (cs : List Call) (b : GcKeyBatcher) : Prop where
  requests : ∀ r ∈ b.requests, Sound cs r
  older : ∀ batch ∈ b.pointsBatches.older, ∀ p ∈ batch.batchGCKeys, Reported cs p
  last : ∀ p ∈ b.pointsBatches.last.batchGCKeys, Reported cs p

theorem Holds.first (h : Holds cs b) : ∀ p ∈ b.pointsBatches.first.batchGCKeys, Reported cs p := by
  unfold PointsBatches.first
  cases ho : b.pointsBatches.older with
  | nil => exact h.last
  | cons batch _ => exact h.older batch (by rw [ho]; exact mem_cons_self)

/-- Nothing but requests and accounts has changed. -/
def Passed (cs : List Call) (b b' : GcKeyBatcher) : Prop :=
  ∃ rs info mem, b' = { b with requests := rs, info := info, totalMemUsed := mem } ∧
    ∀ r ∈ rs, Sound cs r

theorem sound_append {rs : List GCRequest} {r : GCRequest} (h : ∀ r ∈ rs, Sound cs r)
    (hr : Sound cs r) : ∀ r' ∈ rs ++ [r], Sound cs r' :=
  forall_mem_append.mpr ⟨h, forall_mem_singleton.mpr hr⟩

theorem flushPointsBatch_sound (hd : Delivered cs) (h : ∀ r ∈ b.requests, Sound cs r)
    (hb : ∀ p ∈ batch.batchGCKeys, Reported cs p) :
    Sat (b.flushPointsBatch gcer batch) (StopsSound cs) (Passed cs b) := by
  have hs := sound_append h (hd.points_sound hb)
  unfold flushPointsBatch
  exact Sat.ite (fun _ => hs) fun _ => ⟨_, _, _, rfl, hs⟩

/-- The oldest batches go out. -/
theorem flushOldestPointBatches_sound (hd : Delivered cs) (h : Holds cs b) (count : Nat) :
    Sat (b.flushOldestPointBatches gcer count) (StopsSound cs) fun b' =>
      ∃ b₁, Passed cs b b₁ ∧ b' = { b₁ with
        pointsBatches := { b.pointsBatches with older := b.pointsBatches.older.drop count } } := by
  unfold flushOldestPointBatches
  refine Sat.bind (P := Passed cs b) (Sat.foldlM (fun b₁ batch hb hp => ?_)
    ⟨_, _, _, rfl, h.requests⟩) ?_
  · obtain ⟨rs, info, mem, rfl, hrs⟩ := hp
    refine (flushPointsBatch_sound hd hrs (h.older batch (mem_of_mem_take hb))).imp ?_
    rintro _ ⟨rs', info', mem', rfl, hrs'⟩
    exact ⟨rs', info', mem', rfl, hrs'⟩
  · rintro b₁ ⟨rs, info, mem, rfl, hrs⟩
    exact ⟨_, ⟨rs, info, mem, rfl, hrs⟩, rfl⟩

/-- The clear range that is tracked starts at the last version, which is garbage, and
what came before its end is garbage. -/
structure Tracked (cs past : List Call) (b : GcKeyBatcher) : Prop where
  start : ∃ c ∈ past, c.garbage = true ∧ b.clearRangeStartKey = c.cur.key ∧
    ∀ d ∈ cs, c.cur.key ≤ d.cur.key → d ∈ past
  ended : ∀ c ∈ past, c.cur.key.key < b.clearRangeEndKey → c.garbage = true

theorem Tracked.clearRange_sound (hd : Delivered cs) (hp : ∀ c ∈ past, c ∈ cs)
    (h : Tracked cs past b) :
    Sound cs (.clearRange b.clearRangeStartKey.key b.clearRangeStartKey.timestamp
      (if b.clearRangeCounters.keysAffected = 1 then Key.next b.clearRangeStartKey.key
        else b.clearRangeEndKey)) := by
  obtain ⟨c, hc, hg, hstart, hall⟩ := h.start
  rintro d hdc ⟨hle, hend⟩
  have hle' : c.cur.key ≤ d.cur.key := by rw [← hstart]; exact hle
  have hpast := hall d hdc hle'
  split_ifs at hend
  · -- The range holds versions of the start key only.
    rw [hstart] at hend
    have hkey := (lt_append_zero_iff.mp hend).antisymm (MVCCKey.key_le_of_le hle')
    exact hd.older_garbage (hp c hc) hdc hkey hle' hg
  · exact h.ended d hpast hend

theorem flushClearRange_sound (hd : Delivered cs) (hp : ∀ c ∈ past, c ∈ cs)
    (h : ∀ r ∈ b.requests, Sound cs r) (ht : Tracked cs past b) :
    Sat (b.flushClearRange gcer) (StopsSound cs) (Passed cs b) := by
  have hs := sound_append h (ht.clearRange_sound hd hp)
  unfold flushClearRange
  exact Sat.ite (fun _ => hs) fun _ => ⟨_, _, _, rfl, hs⟩

/-- The end of the clear range only moves down. -/
theorem Tracked.shrink (h : Tracked cs past b) {k : Key} (hk : k < b.clearRangeEndKey) :
    Tracked cs past { b with clearRangeEndKey := Key.next k } where
  start := h.start
  ended := fun c hc hlt => h.ended c hc ((lt_append_zero_iff.mp hlt).trans_lt hk)

theorem flushUncovered_sound (hd : Delivered cs) (h : Holds cs b) (ht : Tracked cs past b) :
    Sat (b.flushUncovered gcer) (StopsSound cs) fun b' =>
      (∀ r ∈ b'.requests, Sound cs r) ∧ b'.prevWasNewest = b.prevWasNewest ∧
        Tracked cs past b' := by
  unfold flushUncovered
  refine Sat.ite (fun hidx => ?_) fun _ => ?_
  · cases hk : b.pointsBatches.first.batchGCKeys with
    | nil => exact h.requests
    | cons p ps =>
      rw [hk] at hidx
      have htrue := search_true (n := (p :: ps).length)
        (f := fun i => (p :: ps)[i]?.any fun p => decide (p.key < b.clearRangeEndKey))
        (by rw [show search _ _ = 0 from hidx]; exact Nat.succ_pos _)
      rw [show search _ _ = 0 from hidx] at htrue
      exact ⟨h.requests, rfl, ht.shrink (of_decide_eq_true htrue)⟩
  · refine (flushPointsBatch_sound hd h.requests fun p hp =>
      h.first p (mem_of_mem_take hp)).imp ?_
    rintro _ ⟨rs, info, mem, rfl, hrs⟩
    exact ⟨hrs, rfl, ht.start, ht.ended⟩

/-- After a flush nothing is tracked. -/
structure Drained (cs : List Call) (b b' : GcKeyBatcher) : Prop extends Holds cs b' where
  none : b'.pointsBatches.older = []
  idle : b'.clearRangeCounters = {}
  endKey : b'.clearRangeEndKey = []
  same : b'.prevWasNewest = b.prevWasNewest
  batch : b'.pointsBatches.last = {} ∨ b'.pointsBatches.last = b.pointsBatches.last

section Flush

variable (hd : Delivered cs) (hp : ∀ c ∈ past, c ∈ cs) (h : Holds cs b)
  (ht : th.clearRangeEnabled = true →
    th.clearRangeMinKeys ≤ b.clearRangeCounters.versionsAffected →
      Tracked cs past b ∨ b.pointsBatches.first.batchGCKeys = [])

include hd hp h ht

theorem flushPending_sound :
    Sat (b.flushPending th gcer) (StopsSound cs) fun b' => Holds cs b' ∧
      b'.pointsBatches.older = [] ∧ b'.prevWasNewest = b.prevWasNewest ∧
      (b'.pointsBatches.last = {} ∨ b'.pointsBatches.last = b.pointsBatches.last) := by
  unfold flushPending
  refine Sat.ite (fun hc => ?_) fun _ => ?_
  · rcases ht hc.1 hc.2 with ht | hnil
    · refine Sat.bind (flushUncovered_sound hd h ht) ?_
      rintro b₁ ⟨hrs, hsame, ht₁⟩
      refine (flushClearRange_sound hd hp (b := { b₁ with pointsBatches := {} }) hrs
        ⟨ht₁.start, ht₁.ended⟩).imp ?_
      rintro _ ⟨rs, info, mem, rfl, hrs'⟩
      refine ⟨⟨hrs', fun batch hb => ?_, fun p hp => ?_⟩, rfl, hsame, .inl rfl⟩
      · cases hb
      · cases hp
    · -- A batch without keys stops the collection.
      have hstop : b.flushUncovered gcer = .error ⟨.panic "index out of range", b.requests⟩ := by
        unfold flushUncovered
        rw [hnil]
        rfl
      rw [hstop]
      exact h.requests
  · refine (flushOldestPointBatches_sound hd h _).imp ?_
    rintro _ ⟨_, ⟨rs, info, mem, rfl, hrs⟩, rfl⟩
    refine ⟨⟨hrs, fun batch hb => ?_, h.last⟩, drop_length, rfl, .inr rfl⟩
    rw [drop_length] at hb
    cases hb

theorem maybeFlushPendingBatches_sound :
    Sat (b.maybeFlushPendingBatches th gcer) (StopsSound cs) (Drained cs b) := by
  unfold maybeFlushPendingBatches
  refine Sat.bind (flushPending_sound hd hp h ht) ?_
  rintro b' ⟨hh, hnone, hsame, hbatch⟩
  exact ⟨{ hh with }, hnone, rfl, rfl, hsame, hbatch⟩

end Flush

/-! ## Collecting points -/

/-- A batcher that makes room still holds what it held, in an empty or in the same last
batch. -/
theorem makeRoom_sound (hd : Delivered cs) (h : Holds cs b) :
    Sat (b.makeRoom th gcer) (StopsSound cs) fun b' => ∃ b₁ bs, Passed cs b b₁ ∧
      b' = { b₁ with pointsBatches := bs } ∧ Holds cs b' ∧
      (bs.last = {} ∨ bs.last = b.pointsBatches.last) := by
  have hsame : Passed cs b b := ⟨_, _, _, rfl, h.requests⟩
  have hnil : ∀ p ∈ ({} : PointsBatch).batchGCKeys, Reported cs p := fun p hp => by cases hp
  unfold makeRoom
  refine Sat.ite (fun _ => ?_) fun _ => ⟨b, _, hsame, rfl, h, .inr rfl⟩
  refine Sat.ite (fun _ => ?_) fun _ => ⟨b, _, hsame, rfl, ⟨h.requests, ?_, hnil⟩, .inl rfl⟩
  · refine Sat.bind (flushPointsBatch_sound hd h.requests h.last) ?_
    rintro b₁ ⟨rs, info, mem, rfl, hrs⟩
    exact ⟨_, _, ⟨rs, info, mem, rfl, hrs⟩, rfl, ⟨hrs, h.older, hnil⟩, .inl rfl⟩
  · exact forall_mem_append.mpr ⟨h.older, forall_mem_singleton.mpr h.last⟩

/-- The version added is the last one pending. -/
theorem addPoint_sound (h : Holds cs b) {kv : MvccKeyValue}
    (hr : Reported cs ⟨kv.key.key, kv.key.timestamp⟩)
    (hlast : b.prevWasNewest = false → b.pointsBatches.last.batchGCKeys ≠ [] →
      ∃ p ∈ b.pointsBatches.last.batchGCKeys.getLast?, p.key = kv.key.key) :
    Holds cs (b.addPoint kv) ∧
      ∃ p ∈ (b.addPoint kv).pointsBatches.last.batchGCKeys.getLast?, p.key = kv.key.key := by
  suffices hkeys : ∃ ks, (b.addPoint kv).pointsBatches.last.batchGCKeys =
      ks ++ [⟨kv.key.key, kv.key.timestamp⟩] ∧ ∀ p ∈ ks, Reported cs p by
    obtain ⟨ks, hks, hrep⟩ := hkeys
    refine ⟨⟨h.requests, h.older, ?_⟩, ?_⟩
    · rw [hks]
      exact forall_mem_append.mpr ⟨hrep, forall_mem_singleton.mpr hr⟩
    · rw [hks, getLast?_concat]
      exact ⟨_, rfl, rfl⟩
  show ∃ ks, (if (b.prevWasNewest || b.pointsBatches.last.batchGCKeys.isEmpty) = true then
      b.pointsBatches.last.batchGCKeys ++ [⟨kv.key.key, kv.key.timestamp⟩]
    else b.pointsBatches.last.batchGCKeys.modifyLast
      fun p => { p with timestamp := kv.key.timestamp }) = _ ∧ _
  split_ifs with hn
  · exact ⟨_, rfl, h.last⟩
  · rw [Bool.or_eq_true, not_or, Bool.not_eq_true, List.isEmpty_iff] at hn
    obtain ⟨p, hp, hkey⟩ := hlast hn.1 hn.2
    obtain ⟨ks, hks⟩ := getLast?_eq_some_iff.mp hp
    refine ⟨ks, ?_, fun q hq => h.last q ?_⟩
    · rw [hks, modifyLast_concat, hkey]
    · rw [hks]
      exact mem_append_left _ hq

/-- What collecting a point leaves: the key is the last one pending, and the end of the
clear range has only moved down. -/
structure Collected (cs : List Call) (b : GcKeyBatcher) (k : Key) (b' : GcKeyBatcher) : Prop
    extends Holds cs b' where
  newest : b'.prevWasNewest = b.prevWasNewest
  start : b'.clearRangeStartKey = b.clearRangeStartKey
  ended : ∀ k, k < b'.clearRangeEndKey → k < b.clearRangeEndKey
  current : ∃ p ∈ b'.pointsBatches.last.batchGCKeys.getLast?, p.key = k

theorem evictOldest_sound (hd : Delivered cs) (h : Holds cs b) {k : Key}
    (hk : ∃ p ∈ b.pointsBatches.last.batchGCKeys.getLast?, p.key = k) :
    Sat (b.evictOldest th gcer) (StopsSound cs) (Collected cs b k) := by
  unfold evictOldest
  refine Sat.ite (fun _ => ?_) fun _ => ⟨h, rfl, rfl, fun _ h => h, hk⟩
  cases hl : b.pointsBatches.first.batchGCKeys.getLast? with
  | none => exact h.requests
  | some p =>
    dsimp only
    have hdrop : ∀ b₁ clearRangeCounters clearRangeEndKey,
        b₁ = { b with clearRangeCounters, clearRangeEndKey, partialPointBatchCounters := {} } →
        (∀ k, k < clearRangeEndKey → k < b.clearRangeEndKey) →
        Sat (b₁.flushOldestPointBatches gcer 1) (StopsSound cs) (Collected cs b k) := by
      intro b₁ _ _ hb₁ hend
      have hh : Holds cs b₁ := hb₁ ▸ { h with }
      refine (flushOldestPointBatches_sound hd hh 1).imp ?_
      subst hb₁
      rintro _ ⟨_, ⟨rs, info, mem, rfl, hrs⟩, rfl⟩
      exact ⟨⟨hrs, fun batch hb => h.older batch (mem_of_mem_drop hb), h.last⟩, rfl, rfl, hend, hk⟩
    split_ifs with hlt
    · exact hdrop _ _ _ rfl fun k hk' => (lt_append_zero_iff.mp hk').trans_lt hlt
    · exact hdrop _ _ _ rfl fun _ h => h

end Flush

/-! ## Whole collections -/

section Run

variable {th : GcKeyBatcherThresholds} {gcer : GCer} {b b' : GcKeyBatcher}

/-- What holds of the batcher after the calls of `past`, the last one first. -/
structure Inv (th : GcKeyBatcherThresholds) (cs past : List Call) (b : GcKeyBatcher) : Prop
    extends Holds cs b where
  newest : b.prevWasNewest = (past.head?.map (·.isNewestPoint)).getD true
  idle : th.clearRangeEnabled = true → (∀ c ∈ past.head?, c.garbage = false) →
    b.clearRangeCounters.versionsAffected = 0
  started : th.clearRangeEnabled = true → ∀ c ∈ past.head?, c.garbage = true →
    b.clearRangeStartKey = c.cur.key
  ended : th.clearRangeEnabled = true → ∀ c ∈ past, c.cur.key.key < b.clearRangeEndKey →
    c.garbage = true
  /-- While points are collected the last key of the last batch is the one at hand. -/
  current : ∀ c ∈ past.head?, c.garbage = true →
    (th.clearRangeEnabled = true →
      b.clearRangeCounters.versionsAffected < th.clearRangeMinKeys) →
    ∃ p ∈ b.pointsBatches.last.batchGCKeys.getLast?, p.key = c.cur.key.key
  /-- No points are collected if a clear range needs no keys. -/
  few : th.clearRangeEnabled = true → th.clearRangeMinKeys ≤ 0 →
    0 ≤ b.clearRangeCounters.versionsAffected ∧ b.pointsBatches.older = [] ∧
      b.pointsBatches.last.batchGCKeys = []

theorem inv_init (endKey : Key) : Inv th cs [] { clearRangeEndKey := endKey } where
  requests := fun r hr => by cases hr
  older := fun batch hb => by cases hb
  last := fun p hp => by cases hp
  newest := rfl
  idle := fun _ _ => rfl
  started := fun _ c hc => by cases hc
  ended := fun _ c hc => by cases hc
  current := fun c hc => by cases hc
  few := fun _ _ => ⟨le_rfl, rfl, rfl⟩

/-- The last call before the rest, and all that is not below it. -/
theorem Delivered.not_below (h : Delivered (past.reverse ++ rest)) {c : Call}
    (hc : c ∈ past.head?) : ∀ d ∈ past.reverse ++ rest, c.cur.key ≤ d.cur.key → d ∈ past := by
  intro d hd hle
  rcases mem_append.mp hd with hd | hd
  · exact mem_reverse.mp hd
  · have := (pairwise_append.mp h.descending).2.2 c (mem_reverse.mpr (mem_of_mem_head? hc)) d hd
    exact absurd hle (not_le.mpr this)

theorem Inv.tracked (h : Inv th cs past b)
    (hall : ∀ c ∈ past.head?, ∀ d ∈ cs, c.cur.key ≤ d.cur.key → d ∈ past)
    (he : th.clearRangeEnabled = true)
    (hv : th.clearRangeMinKeys ≤ b.clearRangeCounters.versionsAffected) :
    Tracked cs past b ∨ b.pointsBatches.first.batchGCKeys = [] := by
  by_cases hmin : th.clearRangeMinKeys ≤ 0
  · right
    obtain ⟨-, hnone, hlast⟩ := h.few he hmin
    unfold PointsBatches.first
    rw [hnone]
    exact hlast
  · left
    cases hh : past.head? with
    | none =>
      have := h.idle he fun c hc => by rw [hh] at hc; cases hc
      omega
    | some c =>
      have hg : c.garbage = true := by
        cases hg : c.garbage with
        | true => rfl
        | false =>
          have := h.idle he fun d hd => by rw [hh] at hd; cases hd; exact hg
          omega
      exact ⟨⟨c, mem_of_mem_head? hh, hg, h.started he c hh hg, hall c hh⟩, h.ended he⟩

theorem Inv.savePartial (h : Inv th cs past b) : Inv th cs past (b.savePartial th) := by
  unfold GcKeyBatcher.savePartial
  split_ifs
  · exact { h with toHolds := { h with } }
  · exact h

section Next

variable (hcs : cs = past.reverse ++ cur :: rest) (hd : Delivered cs) (h : Inv th cs past b)

include hcs hd h

theorem Inv.foundNonGCableData (hg : cur.garbage = false) :
    Sat (b.foundNonGCableData th gcer cur.cur cur.isNewestPoint) (StopsSound cs)
      (Inv th cs (cur :: past)) := by
  subst hcs
  have hno : ∀ c ∈ (cur :: past).head?, ¬ c.garbage = true := by
    intro c hc
    cases hc
    rw [hg]
    exact Bool.false_ne_true
  unfold GcKeyBatcher.foundNonGCableData
  refine Sat.ite (fun he => ?_) fun he => ?_
  · have he' : ¬ th.clearRangeEnabled = true := by simpa using he
    exact { toHolds := { h with }
            newest := rfl
            idle := fun hc => absurd hc he'
            started := fun hc => absurd hc he'
            ended := fun hc => absurd hc he'
            current := fun c hc hg => absurd hg (hno c hc)
            few := fun hc => absurd hc he' }
  · have he' : th.clearRangeEnabled = true := by simpa using he
    have hpast : ∀ c ∈ past, c ∈ past.reverse ++ cur :: rest := fun c hc =>
      mem_append_left _ (mem_reverse.mpr hc)
    refine Sat.bind (maybeFlushPendingBatches_sound hd hpast
      (b := { b with prevWasNewest := cur.isNewestPoint }) { h with }
      fun he hv => ?_) ?_
    · rcases h.tracked (fun c hc => hd.not_below hc) he hv with ht | hnil
      · exact .inl { ht with }
      · exact .inr hnil
    · intro b' hb'
      have hzero : b'.clearRangeCounters.versionsAffected = 0 := by rw [hb'.idle]
      have hfew : th.clearRangeMinKeys ≤ 0 → b'.pointsBatches.last.batchGCKeys = [] := by
        intro hmin
        rcases hb'.batch with hl | hl
        · rw [hl]
        · rw [hl]; exact (h.few he' hmin).2.2
      have hinv : ∀ k, (∀ c ∈ cur :: past, c.cur.key.key < k → c.garbage = true) →
          Inv th _ (cur :: past) { b' with clearRangeEndKey := k } := fun k hk =>
        { toHolds := { hb' with }
          newest := hb'.same
          idle := fun _ _ => hzero
          started := fun _ c hc hg => absurd hg (hno c hc)
          ended := fun _ => hk
          current := fun c hc hg => absurd hg (hno c hc)
          few := fun _ hmin => ⟨hzero.ge, hb'.none, hfew hmin⟩ }
      show Inv th _ _ (if cur.isNewestPoint = true then
        { b' with clearRangeEndKey := cur.cur.key.key } else b')
      split_ifs with hn
      · -- All keys so far are at or above this one.
        refine hinv _ fun c hc hlt => ?_
        rcases mem_cons.mp hc with rfl | hc
        · exact absurd hlt (lt_irrefl _)
        · exact absurd hlt (not_lt.mpr (MVCCKey.key_le_of_le (hd.next.1 c hc).le))
      · refine hinv _ fun c _ hlt => ?_
        rw [hb'.endKey] at hlt
        exact absurd hlt (not_lt_nil _)

/-- A further version of a key follows a garbage version of it. -/
theorem Inv.same_key (hg : cur.garbage = true) (hn : b.prevWasNewest = false) :
    ∃ c ∈ past.head?, c.garbage = true ∧ c.cur.key.key = cur.cur.key.key := by
  subst hcs
  rw [h.newest] at hn
  cases hh : past.head? with
  | none =>
    rw [hh] at hn
    cases hn
  | some c =>
    rw [hh] at hn
    have hnot : ¬ c.isNewestPoint = true := by
      rw [show c.isNewestPoint = false from hn]
      exact Bool.false_ne_true
    have hkey : c.cur.key.key = cur.cur.key.key := by
      by_contra hne
      exact hnot ((hd.next.2.2 c hh).mpr fun h => hne h.symm)
    exact ⟨c, rfl, hd.next.2.1 c (mem_of_mem_head? hh) hkey hg, hkey⟩

theorem Inv.collectPoint (hg : cur.garbage = true) (hc : !th.clearRangeEnabled ∨
      b.clearRangeCounters.versionsAffected < th.clearRangeMinKeys) :
    Sat (b.collectPoint th gcer cur.cur) (StopsSound cs) (Collected cs b cur.cur.key.key) := by
  have hr : Reported cs ⟨cur.cur.key.key, cur.cur.key.timestamp⟩ :=
    ⟨cur, hcs ▸ mem_append_right _ mem_cons_self, hg, rfl⟩
  unfold GcKeyBatcher.collectPoint
  rw [if_pos hc]
  refine Sat.bind (makeRoom_sound hd h.toHolds) ?_
  rintro _ ⟨_, bs, ⟨rs, info, mem, rfl, hrs⟩, rfl, hh, hlast⟩
  have hprev : b.prevWasNewest = false → bs.last.batchGCKeys ≠ [] →
      ∃ p ∈ bs.last.batchGCKeys.getLast?, p.key = cur.cur.key.key := by
    intro hn hne
    rcases hlast with hl | hl
    · rw [hl] at hne
      exact absurd rfl hne
    · obtain ⟨c, hcm, hcg, hkey⟩ := h.same_key hcs hd hg hn
      rw [hl, ← hkey]
      refine h.current c hcm hcg fun he => hc.resolve_left ?_
      rw [he]
      exact Bool.false_ne_true
  obtain ⟨hadd, hcur⟩ := addPoint_sound hh hr hprev
  exact (evictOldest_sound hd hadd hcur).imp fun b' hb' => { hb' with }

theorem Inv.foundGarbage (hg : cur.garbage = true) :
    Sat (b.foundGarbage th gcer cur.cur cur.isNewestPoint) (StopsSound cs)
      (Inv th cs (cur :: past)) := by
  have h := h.savePartial
  unfold GcKeyBatcher.foundGarbage
  generalize b.savePartial th = b at h ⊢
  have hstart : ∀ b' : GcKeyBatcher, th.clearRangeEnabled = true →
      b'.prevWasNewest = b.prevWasNewest → b'.clearRangeStartKey = b.clearRangeStartKey →
      (b'.trackClearRange cur.cur).clearRangeStartKey = cur.cur.key := by
    intro b' he hn hs
    show (⟨if b'.prevWasNewest = true then _ else _, _⟩ : MVCCKey) = _
    refine MVCCKey.ext ?_ rfl
    show (if b'.prevWasNewest = true then cur.cur.key.key else b'.clearRangeStartKey.key) = _
    split_ifs with hp
    · rfl
    · rw [hn, Bool.not_eq_true] at hp
      obtain ⟨c, hcm, hcg, hkey⟩ := h.same_key hcs hd hg hp
      rw [hs, h.started he c hcm hcg, hkey]
  have hcur : ∀ c ∈ (cur :: past).head?, c = cur := fun c hc => (Option.some.inj hc).symm
  have hidle : ¬ ∀ c ∈ (cur :: past).head?, c.garbage = false := by
    intro hall
    have := hall cur rfl
    rw [hg] at this
    cases this
  by_cases hc : !th.clearRangeEnabled ∨
      b.clearRangeCounters.versionsAffected < th.clearRangeMinKeys
  · refine Sat.bind (h.collectPoint hcs hd hg hc) fun b' hb' => ?_
    show Inv th _ _ { (if th.clearRangeEnabled = true then b'.trackClearRange cur.cur else b') with
      prevWasNewest := cur.isNewestPoint }
    split_ifs with he
    · have hlt := hc.resolve_left (by rw [he]; exact Bool.false_ne_true)
      exact { toHolds := { hb' with }
              newest := rfl
              idle := fun _ hall => absurd hall hidle
              started := fun _ c hc _ => by
                rw [hcur c hc]
                exact hstart b' he hb'.newest hb'.start
              ended := fun _ c hc hlt => by
                rcases mem_cons.mp hc with rfl | hc
                · exact hg
                · exact h.ended he c hc (hb'.ended _ hlt)
              current := fun c hc _ _ => by
                rw [hcur c hc]
                exact hb'.current
              few := fun _ hmin => by
                have := (h.few he hmin).1
                omega }
    · exact { toHolds := { hb' with }
              newest := rfl
              idle := fun _ hall => absurd hall hidle
              started := fun hc => absurd hc he
              ended := fun hc => absurd hc he
              current := fun c hc _ _ => by
                rw [hcur c hc]
                exact hb'.current
              few := fun hc => absurd hc he }
  · have hno := hc
    rw [not_or, Bool.not_eq_true', Bool.not_eq_false, not_lt] at hc
    obtain ⟨he, hmin⟩ := hc
    unfold GcKeyBatcher.collectPoint
    rw [if_neg hno]
    show Inv th _ _ { (if th.clearRangeEnabled = true then b.trackClearRange cur.cur else b) with
      prevWasNewest := cur.isNewestPoint }
    rw [if_pos he]
    have hv : (b.trackClearRange cur.cur).clearRangeCounters.versionsAffected =
        b.clearRangeCounters.versionsAffected + 1 := rfl
    exact { toHolds := { h with }
            newest := rfl
            idle := fun _ hall => absurd hall hidle
            started := fun _ c hc _ => by
              rw [hcur c hc]
              exact hstart b he rfl rfl
            ended := fun _ c hc hlt => by
              rcases mem_cons.mp hc with rfl | hc
              · exact hg
              · exact h.ended he c hc hlt
            current := fun c hc _ hlt => by
              have := hlt he
              change (b.trackClearRange cur.cur).clearRangeCounters.versionsAffected < _ at this
              omega
            few := fun _ hneg => by
              obtain ⟨hpos, hnone, hlast⟩ := h.few he hneg
              refine ⟨?_, hnone, hlast⟩
              change 0 ≤ (b.trackClearRange cur.cur).clearRangeCounters.versionsAffected
              omega }

/-- A call keeps the invariant. -/
theorem Inv.found : Sat (b.found th gcer cur) (StopsSound cs) (Inv th cs (cur :: past)) := by
  unfold GcKeyBatcher.found
  refine Sat.ite (fun hg => h.foundGarbage hcs hd hg) fun hg => ?_
  exact h.foundNonGCableData hcs hd (Bool.not_eq_true _ ▸ hg)

end Next

theorem Inv.run (hd : Delivered (past.reverse ++ rest)) (h : Inv th (past.reverse ++ rest) past b) :
    Sat (rest.foldlM (GcKeyBatcher.found th gcer) b) (StopsSound (past.reverse ++ rest))
      (Inv th (past.reverse ++ rest) (rest.reverse ++ past)) := by
  induction rest generalizing past b with
  | nil => exact h
  | cons cur rest ih =>
    rw [foldlM_cons]
    refine Sat.bind (h.found rfl hd) fun b' hb' => ?_
    have heq : past.reverse ++ cur :: rest = (cur :: past).reverse ++ rest := by simp
    rw [heq] at hd hb' ⊢
    have := ih hd hb'
    rwa [show rest.reverse ++ (cur :: past) = (cur :: rest).reverse ++ past by simp] at this

theorem Inv.flushLastBatch (hd : Delivered cs) (h : Inv th cs cs.reverse b) :
    Sat (b.flushLastBatch th gcer) (StopsSound cs) fun b' => ∀ r ∈ b'.requests, Sound cs r := by
  unfold GcKeyBatcher.flushLastBatch
  refine Sat.ite (fun _ => h.requests) fun hne => ?_
  have hpast : ∀ c ∈ cs.reverse, c ∈ cs := fun c hc => mem_reverse.mp hc
  refine (maybeFlushPendingBatches_sound hd hpast ?_ fun he hv => ?_).imp
    fun b' hb' => hb'.requests
  · refine ⟨h.requests, ?_, fun p hp => by cases hp⟩
    exact forall_mem_append.mpr ⟨h.older, forall_mem_singleton.mpr h.last⟩
  · have hall : ∀ c ∈ cs.reverse.head?, ∀ d ∈ cs, c.cur.key ≤ d.cur.key → d ∈ cs.reverse :=
      fun _ _ d hd _ => mem_reverse.mpr hd
    rcases h.tracked hall he hv with ht | hnil
    · exact .inl { ht with }
    · exact absurd hnil hne

/-- A collection passes on sound requests, whether it stops early or not. -/
theorem collect_sound (th : GcKeyBatcherThresholds) (gcer : GCer) (endKey : Key)
    (hd : Delivered cs) : ∀ r ∈ requests (collect th gcer endKey cs), Sound cs r := by
  have hrun : Sat (collect th gcer endKey cs) (StopsSound cs) fun b =>
      ∀ r ∈ b.requests, Sound cs r := by
    unfold collect
    have h := @Inv.run [] cs th gcer _ hd (inv_init endKey)
    rw [append_nil] at h
    exact Sat.bind h fun b hb => hb.flushLastBatch hd
  cases hc : collect th gcer endKey cs with
  | error e => exact hrun.stop hc
  | ok b => exact hrun.elim hc

/-- The batcher passes on requests that cover nothing but what was reported as garbage,
under any thresholds and whatever is answered to them. -/
theorem requests_cover_only_garbage (th : GcKeyBatcherThresholds) (gcer : GCer) (endKey : Key)
    (hd : Delivered cs) :
    ∀ r ∈ requests (collect th gcer endKey cs), ∀ c ∈ cs, r.Covers c.cur.key →
      c.garbage = true :=
  fun r hr c hc hcov => collect_sound th gcer endKey hd r hr c hc hcov

/-- A key whose two oldest versions are garbage, before one with a single version. -/
def twoKeys : List Call :=
  [⟨{ key := ⟨[98], ⟨1, 0⟩⟩ }, true, false⟩, ⟨{ key := ⟨[98], ⟨2, 0⟩⟩ }, true, false⟩,
   ⟨{ key := ⟨[98], ⟨3, 0⟩⟩ }, false, true⟩, ⟨{ key := ⟨[97], ⟨1, 0⟩⟩ }, true, true⟩]

theorem twoKeys_delivered : Delivered twoKeys where
  descending := by decide
  closed := by decide
  newest := by decide
  values := by decide

/-- Two versions of a key go by a clear range that stops before its third version, the
other key by a point request. -/
theorem requests_cover_only_garbage_twoKeys :
    requests (collect ⟨1024, 2, true, 1024⟩ (fun _ => .ok) [99] twoKeys) =
        [.clearRange [98] ⟨2, 0⟩ [98, 0], .points [⟨[97], ⟨1, 0⟩⟩]] ∧
      ∀ r ∈ requests (collect ⟨1024, 2, true, 1024⟩ (fun _ => .ok) [99] twoKeys),
        ∀ c ∈ twoKeys, r.Covers c.cur.key → c.garbage = true :=
  ⟨by decide +kernel, requests_cover_only_garbage _ _ _ twoKeys_delivered⟩

end Run

end Cockroach.Gc
