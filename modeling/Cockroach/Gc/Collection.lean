import Cockroach.Gc.OnlyGarbage
import Cockroach.Gc.PermittedReads

/-!
# A whole collection

The calls of the loop over a range come in the order that the batcher relies on
(`RangeContents.calls_delivered`), so that `processReplicatedKeyRange` asks for nothing but
garbage to be removed (`processReplicatedKeyRange_covers`). Whichever of its requests are
carried out, no read above the threshold notices (`requests_keep_reads`).
-/

namespace Cockroach.Gc

open Lib Hlc Storage List

section Key

variable {threshold rangeTS : Timestamp} {k : Key} {m : Option (List UInt8)} {vs : List Version}

/-- The calls for a key are about that key. -/
theorem keyCalls_key : ∀ call ∈ keyCalls threshold rangeTS k m vs, call.cur.key.key = k := by
  intro call hcall
  have := mem_map_of_mem (f := (·.cur)) hcall
  rw [keyCalls_map_cur] at this
  rcases mem_append.mp this with h | h
  · obtain ⟨v, -, heq⟩ := mem_map.mp h
    rw [← heq]
    rfl
  · split_ifs at h
    · obtain ⟨value, -, heq⟩ := mem_map.mp h
      rw [← heq]
      rfl
    · cases h

theorem version_lt_iff {t s : Timestamp} (ht : t ≠ {}) (hs : s ≠ {}) :
    (⟨k, t⟩ : MVCCKey) < ⟨k, s⟩ ↔ s < t :=
  @MVCCKey.lt_version_iff ⟨k, t⟩ ⟨k, s⟩ rfl (MVCCKey.isValue_iff.mpr ht)
    (MVCCKey.isValue_iff.mpr hs)

section

variable (hasc : vs.Pairwise fun v w => v.timestamp < w.timestamp)
include hasc

theorem keyCalls_descending (hs : ∀ v ∈ vs, v.timestamp ≠ {}) :
    (keyCalls threshold rangeTS k m vs).Pairwise fun c d => d.cur.key < c.cur.key := by
  have hmap : ((keyCalls threshold rangeTS k m vs).map (·.cur)).Pairwise
      fun a b => b.key < a.key := by
    rw [keyCalls_map_cur]
    split_ifs with hnil
    · rw [hnil, map_nil, nil_append]
      cases m with
      | none => exact List.Pairwise.nil
      | some value => exact pairwise_singleton _ _
    · rw [append_nil]
      refine pairwise_map.mpr (hasc.imp_of_mem fun {v w} hv hw hlt => ?_)
      exact (version_lt_iff (hs w hw) (hs v hv)).mpr hlt
  exact pairwise_map.mp hmap

/-- The version of a call before that of a garbage one is committed. -/
theorem committedUpTo_of_lt
    {v w : Version} (hv : v ∈ vs) (hw : w ∈ committedUpTo m vs) (hlt : v.timestamp < w.timestamp) :
    v ∈ committedUpTo m vs := by
  unfold committedUpTo at hw ⊢
  split_ifs at hw ⊢
  · obtain ⟨u, hu⟩ : ∃ u, u ∈ vs.getLast? := by
      cases hl : vs.getLast? with
      | none =>
        rw [getLast?_eq_none_iff.mp hl] at hv
        cases hv
      | some u => exact ⟨u, rfl⟩
    have hsplit := dropLast_append_getLast? u hu
    rw [← hsplit] at hv hasc
    rcases mem_append.mp hv with hv | hv
    · exact hv
    · -- The last version is not below another one.
      have := (pairwise_append.mp hasc).2.2 w hw u (mem_singleton.mpr rfl)
      rw [mem_singleton.mp hv] at hlt
      exact absurd hlt (not_lt.mpr this.le)
  · exact hv

theorem keyCalls_closed (hs : ∀ v ∈ vs, v.timestamp ≠ {}) :
    (keyCalls threshold rangeTS k m vs).Pairwise fun c d =>
      c.cur.key.key = d.cur.key.key → d.garbage = true → c.garbage = true := by
  refine (keyCalls_descending hasc hs).imp_of_mem fun {c d} hc hd hlt _ hg => ?_
  obtain ⟨w, hw, hdkey⟩ := (keyCalls_garbage hasc d hd).mp hg
  have hne : vs ≠ [] := ne_nil_of_mem (committedUpTo_subset hw.1)
  have hcur := mem_map_of_mem (f := (·.cur)) hc
  rw [keyCalls_map_cur, if_neg hne, append_nil] at hcur
  obtain ⟨v, hv, heq⟩ := mem_map.mp hcur
  have hckey : c.cur.key = ⟨k, v.timestamp⟩ := by rw [← heq]; rfl
  have hvw : v.timestamp < w.timestamp := by
    rw [hckey, hdkey] at hlt
    exact (version_lt_iff (hs w (committedUpTo_subset hw.1)) (hs v hv)).mp hlt
  exact (keyCalls_garbage hasc c hc).mpr
    ⟨v, hw.older (committedUpTo_of_lt hasc hv hw.1 hvw) hvw, hckey⟩

end

/-- Only the last call for a key is told to be the newest one. -/
theorem keyCalls_newest : (keyCalls threshold rangeTS k m vs).IsChain
        (fun c d => c.isNewestPoint = true ↔ d.cur.key.key ≠ c.cur.key.key) ∧
      ∀ c ∈ (keyCalls threshold rangeTS k m vs).getLast?, c.isNewestPoint = true := by
  induction vs with
  | nil =>
    cases m with
    | none => exact ⟨.nil, fun c hc => by cases hc⟩
    | some value => exact ⟨.singleton _, fun c hc => by cases hc; rfl⟩
  | cons v vs ih =>
    cases vs with
    | nil => exact ⟨.singleton _, fun c hc => by cases hc; rfl⟩
    | cons w vs =>
      obtain ⟨hchain, hlast⟩ := ih
      unfold keyCalls
      have hkey : ∀ d ∈ (keyCalls threshold rangeTS k m (w :: vs)).head?,
          d.cur.key.key = k := fun d hd => keyCalls_key d (mem_of_mem_head? hd)
      constructor
      · refine isChain_cons.mpr ⟨fun d hd => ?_, hchain⟩
        rw [hkey d hd]
        exact ⟨fun h => (by cases h), fun h => absurd rfl h⟩
      · intro c hc
        have hne : keyCalls threshold rangeTS k m (w :: vs) ≠ [] := by
          intro hnil
          have hlen := congrArg length (@keyCalls_map_cur threshold rangeTS k m (w :: vs))
          rw [hnil] at hlen
          simp at hlen
        rw [getLast?_cons_of_ne_nil hne] at hc
        exact hlast c hc

end Key

section Range

variable {c : RangeContents} {threshold : Timestamp}

/-- The calls for several keys, the last key first. -/
theorem calls_newest {ks : List (Key × Stored)} (hsorted : ks.Pairwise fun p q => q.1 < p.1) :
    (ks.flatMap fun p => keyCalls threshold (c.rangeTS threshold p.1) p.1 p.2.metaValue
      p.2.versions.reverse).IsChain
        fun c d => c.isNewestPoint = true ↔ d.cur.key.key ≠ c.cur.key.key := by
  induction ks with
  | nil => exact .nil
  | cons p ks ih =>
    obtain ⟨hlt, hsorted⟩ := pairwise_cons.mp hsorted
    rw [flatMap_cons]
    obtain ⟨hchain, hlast⟩ := keyCalls_newest
    refine isChain_append.mpr ⟨hchain, ih hsorted, fun x hx y hy => ?_⟩
    obtain ⟨q, hq, hmem⟩ := mem_flatMap.mp (mem_of_mem_head? hy)
    rw [keyCalls_key y hmem, keyCalls_key x (mem_of_mem_getLast? hx)]
    exact ⟨fun _ => (hlt q hq).ne, fun _ => hlast x hx⟩

/-- The calls of the loop come in the order that the batcher relies on. -/
theorem RangeContents.calls_delivered : Delivered (c.calls threshold) := by
  have hasc : ∀ p ∈ c.keys.reverse,
      p.2.versions.reverse.Pairwise fun v w => v.timestamp < w.timestamp := fun p hp =>
    pairwise_reverse.mpr (c.valid p (mem_reverse.mp hp)).descending
  have hstamped : ∀ p ∈ c.keys.reverse, ∀ v ∈ p.2.versions.reverse, v.timestamp ≠ {} :=
    fun p hp v hv => (c.valid p (mem_reverse.mp hp)).stamped v (mem_reverse.mp hv)
  have hkeys : c.keys.reverse.Pairwise fun p q => q.1 < p.1 := pairwise_reverse.mpr c.sorted
  constructor
  case descending =>
    refine pairwise_flatMap.mpr ⟨fun p hp => keyCalls_descending (hasc p hp) (hstamped p hp),
      hkeys.imp fun {p q} hlt x hx y hy => ?_⟩
    refine MVCCKey.lt_iff_rank.mpr (.inl ?_)
    rw [keyCalls_key x hx, keyCalls_key y hy]
    exact hlt
  case closed =>
    refine pairwise_flatMap.mpr ⟨fun p hp => keyCalls_closed (hasc p hp) (hstamped p hp),
      hkeys.imp fun {p q} hlt x hx y hy heq => ?_⟩
    rw [keyCalls_key x hx, keyCalls_key y hy] at heq
    exact absurd heq hlt.ne'
  case newest => exact calls_newest hkeys
  case values =>
    intro call hcall hg
    obtain ⟨p, hp, hcall⟩ := mem_flatMap.mp hcall
    obtain ⟨v, hv, hkey⟩ := (keyCalls_garbage (hasc p hp) call hcall).mp hg
    rw [hkey]
    exact MVCCKey.isValue_iff.mpr (hstamped p hp v (committedUpTo_subset hv.1))

theorem processReplicatedKeyRange_eq {ps : List Position} (h : Listing c ps)
    (th : GcKeyBatcherThresholds) (gcer : GCer) (endKey : Key) :
    processReplicatedKeyRange th gcer endKey threshold ps =
      collect th gcer endKey (c.calls threshold) := by
  unfold processReplicatedKeyRange collect
  rw [loop_eq _ _ h]

/-- A version of the range that a request of a collection covers is garbage. -/
theorem processReplicatedKeyRange_covers {ps : List Position} (h : Listing c ps)
    (th : GcKeyBatcherThresholds) (gcer : GCer) (endKey : Key) :
    ∀ r ∈ requests (processReplicatedKeyRange th gcer endKey threshold ps), ∀ k,
      ∀ v ∈ (c.stored k).versions, r.Covers ⟨k, v.timestamp⟩ →
        (c.stored k).Garbage threshold (c.rangeTS threshold k) v := by
  intro r hr k v hv hcov
  rw [processReplicatedKeyRange_eq h] at hr
  obtain ⟨p, hp, rfl, hstored⟩ := RangeContents.mem_of_stored (ne_nil_of_mem hv)
  obtain ⟨call, hmem, heq, -⟩ := exists_call hp (hstored ▸ hv)
  have hkey : call.cur.key = ⟨p.1, v.timestamp⟩ := by rw [heq]; rfl
  have hg := collect_sound th gcer endKey RangeContents.calls_delivered r hr call hmem
    (by rw [hkey]; exact hcov)
  exact (reported_marks p.1 v hv).mp (reported_iff_exists.mpr ⟨call, hmem, hg, hkey⟩)

/-- What requests remove. -/
def removed (rs : List GCRequest) (k : MVCCKey) : Bool := decide (∃ r ∈ rs, r.Covers k)

/-- With a version the older ones of its key are covered. -/
theorem GCRequest.Covers.older {r : GCRequest} {k : Key} {t s : Timestamp} (h : r.Covers ⟨k, t⟩)
    (hlt : s < t) (hs : s ≠ {}) : r.Covers ⟨k, s⟩ := by
  cases r with
  | points keys =>
    obtain ⟨-, p, hp, hkey, hle⟩ := h
    exact ⟨MVCCKey.isValue_iff.mpr hs, p, hp, hkey, hlt.le.trans hle⟩
  | clearRange startKey startKeyTimestamp endKey =>
    have ht : t ≠ {} := by
      rintro rfl
      exact not_lt_bot hlt
    exact ⟨h.1.trans ((version_lt_iff ht hs).mpr hlt).le, h.2⟩

/-- Reads above the threshold return the same whichever requests of a collection have been
carried out, under any thresholds of the batcher, and whatever becomes of the intents. -/
theorem requests_keep_reads {ps : List Position} (h : Listing c ps) (th : GcKeyBatcherThresholds)
    (gcer : GCer) (endKey : Key) {rs : List GCRequest}
    (hrs : rs ⊆ requests (processReplicatedKeyRange th gcer endKey threshold ps))
    (f : Key → Future) (k : Key) {ts : Timestamp} (hts : threshold < ts) :
    (c.remove (removed rs)).read f k ts = c.read f k ts := by
  have htrims : Trims (fun v => removed rs ⟨k, v.timestamp⟩) (c.stored k) threshold
      (c.rangeTS threshold k) := by
    constructor
    case garbage =>
      intro v hv hg
      obtain ⟨r, hr, hcov⟩ := of_decide_eq_true hg
      exact processReplicatedKeyRange_covers h th gcer endKey r (hrs hr) k v hv hcov
    case older =>
      intro v _ w hw hlt hg
      obtain ⟨r, hr, hcov⟩ := of_decide_eq_true hg
      have hs := (c.stored_valid k).stamped w ((c.stored k).committed_sublist.subset hw)
      exact decide_eq_true ⟨r, hr, hcov.older hlt hs⟩
  unfold RangeContents.read
  rw [RangeContents.stored_remove]
  exact Stored.read_trim (c.stored_valid k) (c.rangeTS_newest k) htrims hts (f k)

end Range

/-- The last key loses a version to a point request, the first one both to a clear range. -/
theorem requests_keep_reads_smallRange :
    let rs := requests (processReplicatedKeyRange ⟨1024, 2, true, 1024⟩ (fun _ => .ok) [99] ⟨7, 0⟩
      smallPositions)
    rs = [.points [⟨[98], ⟨4, 0⟩⟩], .clearRange [97] ⟨5, 0⟩ [97, 0]] ∧
      ∀ (f : Key → Future) (k : Key) (ts : Timestamp), ⟨7, 0⟩ < ts →
        (smallRange.remove (removed rs)).read f k ts = smallRange.read f k ts :=
  ⟨by decide +kernel, fun f k _ hts =>
    requests_keep_reads smallPositions_listing _ _ _ (List.Subset.refl _) f k hts⟩

end Cockroach.Gc
