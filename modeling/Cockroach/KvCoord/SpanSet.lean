import Cockroach.Roachpb.MergeSpans

/-!
# Sets of spans that may be condensed (`condensable_span_set.go`)

Spans are merged, and combined within a range, to save memory. Both may add keys to what the
set covers, and neither drops one (`CondensableSpanSet.covers_mergeAndSort`,
`CondensableSpanSet.maybeCondense_spec`), unless an end key is empty without being nil
(`spanSet_loses_key`). The memory of a key is taken to be its length.
-/

namespace Cockroach.KvCoord

open Roachpb Storage List

/-- `roachpb.SpanOverhead`. -/
def spanOverhead : Int := 48

/-- `spanSize`. -/
def spanSize (sp : RawSpan) : Int :=
  spanOverhead + (sp.key.length + sp.toSpan.endKey.length : Nat)

/-- The size of several spans. -/
def spansSize (spans : List RawSpan) : Int := (spans.map spanSize).sum

/-- `keys.IsLocal`. -/
def isLocal (k : Key) : Bool := k.head? = some 1

/-- `condensableSpanSet`. -/
structure CondensableSpanSet where
  s : List RawSpan := []
  bytes : Int := 0
  condensed : Bool := false
  deriving DecidableEq, Repr, Inhabited

/-- `spanBucket`: the spans that start in a range. There is at least one. -/
structure SpanBucket where
  rangeID : Nat
  first : RawSpan
  rest : List RawSpan
  deriving DecidableEq, Repr, Inhabited

namespace SpanBucket

/-- The spans of a bucket. -/
def spans (b : SpanBucket) : List RawSpan := b.first :: b.rest

/-- The size of the spans of a bucket. -/
def bytes (b : SpanBucket) : Int := spansSize b.spans

/-- The spans of a bucket combined. Of valid spans `Combine` makes a valid one, so that the
`log.Fatalf` for an invalid one is never reached. -/
def combined (b : SpanBucket) : RawSpan :=
  b.rest.foldl (fun cs s => (cs.toSpan.combine s.toSpan).raw) b.first

end SpanBucket

/-- What condensing goes by: the range iterator, which finds the range of a key or fails to, and
`slices.SortFunc`, which may leave buckets of one size in any order. -/
structure RangeIterator where
  rangeID : Key → Option Nat
  sort : List SpanBucket → List SpanBucket
  perm (l : List SpanBucket) : (sort l).Perm l
  sorted (l : List SpanBucket) : (sort l).Pairwise fun a b => b.bytes ≤ a.bytes

/-- Puts a span into the last bucket, if that is the one of its range, or else into a new
one; the last bucket comes first in the list. -/
def addToBucket (rangeID : Nat) (sp : RawSpan) : List SpanBucket → List SpanBucket
  | b :: buckets =>
    if b.rangeID = rangeID then { b with rest := b.rest ++ [sp] } :: buckets
    else ⟨rangeID, sp, []⟩ :: b :: buckets
  | [] => [⟨rangeID, sp, []⟩]

/-- The first loop of `maybeCondense`: local spans apart, the others in buckets by range. -/
def divide (ri : RangeIterator) :
    List RawSpan → List RawSpan → List SpanBucket → Option (List RawSpan × List SpanBucket)
  | [], localSpans, buckets => some (localSpans, buckets)
  | sp :: spans, localSpans, buckets =>
    if isLocal sp.key then divide ri spans (localSpans ++ [sp]) buckets
    else
      match ri.rangeID sp.key with
      | none => none
      | some rangeID => divide ri spans localSpans (addToBucket rangeID sp buckets)

namespace CondensableSpanSet

variable (s : CondensableSpanSet)

/-- `condensableSpanSet.empty`. -/
def empty : Bool := s.s.isEmpty

/-- `condensableSpanSet.asSlice`. -/
def asSlice : List Span := s.s.map RawSpan.toSpan

/-- `condensableSpanSet.insert`. -/
def insert (spans : List RawSpan) : CondensableSpanSet :=
  { s with s := s.s ++ spans, bytes := s.bytes + spansSize spans }

/-- `insert`, of spans whose end keys are nil where they are empty. -/
def insertPlain (spans : List Span) : CondensableSpanSet := s.insert (spans.map Span.raw)

/-- `condensableSpanSet.mergeAndSort`. -/
def mergeAndSort : CondensableSpanSet :=
  let merged := (mergeSpans (insertionSorter _) s.s).1
  { s with s := merged, bytes := if s.s.length ≠ merged.length then spansSize merged else s.bytes }

/-- One round of the second loop of `maybeCondense`. -/
def condenseBucket (maxBytes : Int) (s : CondensableSpanSet) (b : SpanBucket) :
    CondensableSpanSet :=
  -- condense until half the threshold is reached
  if s.bytes ≤ maxBytes.tdiv 2 then { s with s := s.s ++ b.spans }
  else { s with s := s.s ++ [b.combined], bytes := s.bytes - b.bytes + spanSize b.combined }

/-- `condensableSpanSet.maybeCondense`, with whether it condensed. -/
def maybeCondense (ri : RangeIterator) (maxBytes : Int) : CondensableSpanSet × Bool :=
  if s.bytes ≤ maxBytes then (s, false)
  else
    let s := s.mergeAndSort
    if s.bytes ≤ maxBytes then (s, false)
    else
      match divide ri s.s [] [] with
      | none => (s, false)
      | some (localSpans, buckets) =>
        let s := (ri.sort buckets).foldl (condenseBucket maxBytes) { s with s := localSpans }
        ({ s with condensed := true }, true)

/-- `condensableSpanSet.estimateSize`: what the size would be, and the set, which may get
merged. -/
def estimateSize (spans : List RawSpan) (mergeThresholdBytes : Int) :
    CondensableSpanSet × Int :=
  let bytes := spansSize spans
  if s.bytes + bytes ≤ mergeThresholdBytes then (s, s.bytes + bytes)
  else
    let s := s.mergeAndSort
    let estimate := s.bytes + bytes
    if estimate ≤ mergeThresholdBytes then (s, estimate)
    else
      let merged := (mergeSpans (insertionSorter _) (spans ++ s.s)).1
      if merged.length = (spans ++ s.s).length then (s, estimate) else (s, spansSize merged)

/-- The spans of a set are valid. -/
def Valid : Prop := ∀ sp ∈ s.s, sp.Valid

/-- The keys that a set covers. -/
def Covers (k : Key) : Prop := Roachpb.Covers s.asSlice k

variable {s : CondensableSpanSet} {k : Key}

theorem valid_insert {spans : List RawSpan} (h : s.Valid) (hs : ∀ sp ∈ spans, sp.Valid) :
    (s.insert spans).Valid := forall_mem_append.mpr ⟨h, hs⟩

theorem covers_insert {spans : List RawSpan} : (s.insert spans).Covers k ↔
    s.Covers k ∨ Roachpb.Covers (spans.map RawSpan.toSpan) k := by
  unfold Covers asSlice insert
  rw [map_append, covers_append]

theorem valid_insertPlain {spans : List Span} (h : s.Valid) (hs : ∀ sp ∈ spans, sp.Valid) :
    (s.insertPlain spans).Valid :=
  valid_insert h (forall_mem_map.mpr fun sp hsp => (hs sp hsp).raw)

@[simp] theorem covers_insertPlain {spans : List Span} :
    (s.insertPlain spans).Covers k ↔ s.Covers k ∨ Roachpb.Covers spans k := by
  unfold insertPlain
  rw [covers_insert, map_toSpan_raw]

theorem valid_mergeAndSort (h : s.Valid) : s.mergeAndSort.Valid := (mergeSpans_valid _ h).1

/-- Merging neither adds a key nor drops one. -/
theorem covers_mergeAndSort (h : s.Valid) : s.mergeAndSort.Covers k ↔ s.Covers k :=
  (mergeSpans_valid _ h).2 k

end CondensableSpanSet

/-! ## Buckets -/

section Buckets

variable {ri : RangeIterator} {b : SpanBucket} {sp : RawSpan} {k : Key}

/-- All spans of all buckets. -/
def bucketSpans (buckets : List SpanBucket) : List RawSpan := buckets.flatMap SpanBucket.spans

/-- The spans of a bucket start in its range. -/
def SpanBucket.InRange (ri : RangeIterator) (b : SpanBucket) : Prop :=
  ∀ t ∈ b.spans, ri.rangeID t.key = some b.rangeID

theorem addToBucket_spec {rangeID : Nat} {buckets : List SpanBucket}
    (hr : ri.rangeID sp.key = some rangeID) (hb : ∀ b ∈ buckets, b.InRange ri) :
    (∀ b ∈ addToBucket rangeID sp buckets, b.InRange ri) ∧
      (bucketSpans (addToBucket rangeID sp buckets)).Perm (sp :: bucketSpans buckets) := by
  have hnew : SpanBucket.InRange ri ⟨rangeID, sp, []⟩ := forall_mem_singleton.mpr hr
  cases buckets with
  | nil => exact ⟨forall_mem_singleton.mpr hnew, .refl _⟩
  | cons b buckets =>
    rw [addToBucket]
    split_ifs with h
    · obtain ⟨hlast, hb⟩ := forall_mem_cons.mp hb
      have hin : ∀ t ∈ b.spans ++ [sp], ri.rangeID t.key = some b.rangeID :=
        forall_mem_append.mpr ⟨hlast, forall_mem_singleton.mpr (h ▸ hr)⟩
      have hperm : (b.spans ++ [sp] ++ bucketSpans buckets).Perm
          (sp :: (b.spans ++ bucketSpans buckets)) := by
        rw [append_assoc]
        exact perm_middle
      exact ⟨forall_mem_cons.mpr ⟨hin, hb⟩, hperm⟩
    · exact ⟨forall_mem_cons.mpr ⟨hnew, hb⟩, .refl _⟩

/-- Dividing keeps all spans, the local ones apart and the others by range. -/
theorem divide_spec {spans localSpans : List RawSpan} {buckets : List SpanBucket}
    {r : List RawSpan × List SpanBucket} (h : divide ri spans localSpans buckets = some r)
    (hb : ∀ b ∈ buckets, b.InRange ri) :
    (∀ b ∈ r.2, b.InRange ri) ∧ r.1 = localSpans ++ spans.filter (isLocal ·.key) ∧
      (r.1 ++ bucketSpans r.2).Perm (localSpans ++ (bucketSpans buckets ++ spans)) := by
  induction spans generalizing localSpans buckets with
  | nil =>
    cases h
    simpa using hb
  | cons sp spans ih =>
    unfold divide at h
    split_ifs at h with hl
    · obtain ⟨hb', hlocal, hperm⟩ := ih h hb
      refine ⟨hb', by simp [hlocal, hl], hperm.trans ?_⟩
      rw [append_assoc, singleton_append]
      exact Perm.append_left _ perm_middle.symm
    · cases hr : ri.rangeID sp.key with
      | none =>
        rw [hr] at h
        cases h
      | some rangeID =>
        rw [hr] at h
        obtain ⟨hin, hadd⟩ := addToBucket_spec hr hb
        obtain ⟨hb', hlocal, hperm⟩ := ih h hin
        refine ⟨hb', by simp [hlocal, hl], hperm.trans (Perm.append_left _ ?_)⟩
        exact (hadd.append_right spans).trans perm_middle.symm

/-- The combined span of a bucket is valid and covers its spans. -/
theorem SpanBucket.combined_spec (h : ∀ t ∈ b.spans, t.Valid) : b.combined.Valid ∧
    ∀ k, Covers (b.spans.map RawSpan.toSpan) k → k ∈ b.combined.toSpan := by
  obtain ⟨rangeID, first, rest⟩ := b
  unfold combined
  unfold spans at h ⊢
  dsimp only at h ⊢
  induction rest generalizing first with
  | nil =>
    refine ⟨h first mem_cons_self, fun k hk => ?_⟩
    obtain ⟨t, ht, hk⟩ := hk
    rwa [mem_singleton.mp ht] at hk
  | cons t rest ih =>
    obtain ⟨hf, ht⟩ := forall_mem_cons.mp h
    obtain ⟨ht, hrest⟩ := forall_mem_cons.mp ht
    obtain ⟨hv, hc⟩ := ih (first.toSpan.combine t.toSpan).raw
      (forall_mem_cons.mpr ⟨(hf.1.combine ht.1).raw, hrest⟩)
    refine ⟨hv, fun k hk => hc k ?_⟩
    rw [map_cons, map_cons, covers_cons, covers_cons] at hk
    rw [map_cons, covers_cons, Span.toSpan_raw]
    rcases hk with hk | hk | hk
    · exact .inl (Span.mem_combine_left hf.1 ht.1 hk)
    · exact .inl (Span.mem_combine_right hf.1 ht.1 hk)
    · exact .inr hk

/-- What condensing leaves of a bucket: its spans, or one that combines them. -/
def SpanBucket.left : SpanBucket × Bool → List RawSpan
  | (b, false) => b.spans
  | (b, true) => [b.combined]

/-- Of `spans`, some that start in one range have been combined. Local ones are as before. -/
def Condensed (ri : RangeIterator) (spans condensed : List RawSpan) : Prop :=
  ∃ parts : List (SpanBucket × Bool), (∀ p ∈ parts, p.1.InRange ri) ∧
    (spans.filter (isLocal ·.key) ++ bucketSpans (parts.map Prod.fst)).Perm spans ∧
    condensed = spans.filter (isLocal ·.key) ++ parts.flatMap SpanBucket.left

/-- Condensed spans are valid and cover what was covered. -/
theorem Condensed.covers {spans condensed : List RawSpan} (h : Condensed ri spans condensed)
    (hv : ∀ t ∈ spans, t.Valid) : (∀ t ∈ condensed, t.Valid) ∧
      ∀ k, Covers (spans.map RawSpan.toSpan) k → Covers (condensed.map RawSpan.toSpan) k := by
  obtain ⟨parts, -, hperm, rfl⟩ := h
  have hleft : ∀ p ∈ parts, (∀ t ∈ SpanBucket.left p, t.Valid) ∧
      ∀ t ∈ p.1.spans, ∀ k ∈ t.toSpan, ∃ u ∈ SpanBucket.left p, k ∈ u.toSpan := by
    rintro ⟨b, c⟩ hp
    have hb : ∀ t ∈ b.spans, t.Valid := by
      intro t ht
      refine hv t (hperm.mem_iff.mp (mem_append_right _ ?_))
      exact mem_flatMap.mpr ⟨b, mem_map_of_mem hp, ht⟩
    cases c with
    | false => exact ⟨hb, fun t ht k hk => ⟨t, ht, hk⟩⟩
    | true =>
      obtain ⟨hv', hc⟩ := SpanBucket.combined_spec hb
      refine ⟨forall_mem_singleton.mpr hv', fun t ht k hk => ⟨_, mem_singleton_self _, hc k ?_⟩⟩
      exact ⟨_, mem_map_of_mem ht, hk⟩
  refine ⟨forall_mem_append.mpr ⟨fun t ht => hv t (mem_of_mem_filter ht), ?_⟩, ?_⟩
  · intro t ht
    obtain ⟨p, hp, ht⟩ := mem_flatMap.mp ht
    exact (hleft p hp).1 t ht
  · rintro k ⟨_, hmem, hk⟩
    obtain ⟨t, ht, rfl⟩ := mem_map.mp hmem
    rcases mem_append.mp (hperm.mem_iff.mpr ht) with ht | ht
    · exact ⟨_, mem_map_of_mem (mem_append_left _ ht), hk⟩
    · obtain ⟨b, hb, ht⟩ := mem_flatMap.mp ht
      obtain ⟨p, hp, rfl⟩ := mem_map.mp hb
      obtain ⟨u, hu, hku⟩ := (hleft p hp).2 t ht k hk
      exact ⟨_, mem_map_of_mem (mem_append_right _ (mem_flatMap.mpr ⟨p, hp, hu⟩)), hku⟩

end Buckets

theorem spansSize_append (l m : List RawSpan) : spansSize (l ++ m) = spansSize l + spansSize m := by
  simp [spansSize]

theorem spansSize_perm {l m : List RawSpan} (h : l.Perm m) : spansSize l = spansSize m :=
  (h.map spanSize).sum_eq

namespace CondensableSpanSet

variable {s : CondensableSpanSet} {k : Key}

/-- The buckets are taken in, condensed or not, and accounted for. -/
theorem foldl_condenseBucket (maxBytes : Int) (buckets : List SpanBucket)
    (s : CondensableSpanSet) :
    ∃ parts : List (SpanBucket × Bool), parts.map Prod.fst = buckets ∧
      (buckets.foldl (condenseBucket maxBytes) s).s = s.s ++ parts.flatMap SpanBucket.left ∧
      (s.bytes = spansSize s.s + spansSize (bucketSpans buckets) →
        (buckets.foldl (condenseBucket maxBytes) s).bytes =
          spansSize (buckets.foldl (condenseBucket maxBytes) s).s) := by
  induction buckets generalizing s with
  | nil => exact ⟨[], rfl, (append_nil _).symm, fun h => h.trans (add_zero _)⟩
  | cons b buckets ih =>
    obtain ⟨parts, hfst, hs, hbytes⟩ := ih (s.condenseBucket maxBytes b)
    have hsplit : spansSize (bucketSpans (b :: buckets)) =
        b.bytes + spansSize (bucketSpans buckets) := spansSize_append _ _
    rw [hsplit]
    by_cases h : s.bytes ≤ maxBytes.tdiv 2
    · have hstep : s.condenseBucket maxBytes b = { s with s := s.s ++ b.spans } := if_pos h
      refine ⟨(b, false) :: parts, congrArg _ hfst, ?_, fun hsz => hbytes ?_⟩
      · rw [foldl_cons, hs, hstep]
        exact append_assoc ..
      · rw [hstep, spansSize_append, hsz]
        exact (add_assoc ..).symm
    · have hstep : s.condenseBucket maxBytes b = { s with
          s := s.s ++ [b.combined], bytes := s.bytes - b.bytes + spanSize b.combined } := if_neg h
      refine ⟨(b, true) :: parts, congrArg _ hfst, ?_, fun hsz => hbytes ?_⟩
      · rw [foldl_cons, hs, hstep]
        exact append_assoc ..
      · have hone : spansSize [b.combined] = spanSize b.combined := add_zero _
        rw [hstep, spansSize_append, hone]
        dsimp only
        omega

/-- Condensing does nothing, only merges, or goes on to combine spans by range. -/
theorem maybeCondense_cases (ri : RangeIterator) (maxBytes : Int) :
    s.maybeCondense ri maxBytes = (s, false) ∨
    s.maybeCondense ri maxBytes = (s.mergeAndSort, false) ∨
    ∃ s', s.maybeCondense ri maxBytes = (s', true) ∧ s'.condensed = true ∧
      Condensed ri s.mergeAndSort.s s'.s ∧
      (s.mergeAndSort.bytes = spansSize s.mergeAndSort.s → s'.bytes = spansSize s'.s) := by
  unfold maybeCondense
  split_ifs with h
  · exact .inl rfl
  · dsimp only
    split_ifs with h'
    · exact .inr (.inl rfl)
    · cases hd : divide ri s.mergeAndSort.s [] [] with
      | none => exact .inr (.inl rfl)
      | some r =>
        obtain ⟨localSpans, buckets⟩ := r
        obtain ⟨hin, hlocal, hperm⟩ := divide_spec hd (by simp)
        obtain rfl : localSpans = s.mergeAndSort.s.filter (isLocal ·.key) := hlocal
        have hsort := ri.perm buckets
        have hall : (s.mergeAndSort.s.filter (isLocal ·.key) ++ bucketSpans (ri.sort buckets)).Perm
            s.mergeAndSort.s := ((hsort.flatMap_right _).append_left _).trans hperm
        obtain ⟨parts, hfst, hs, hbytes⟩ := foldl_condenseBucket maxBytes (ri.sort buckets)
          { s.mergeAndSort with s := s.mergeAndSort.s.filter (isLocal ·.key) }
        refine .inr (.inr ⟨_, rfl, rfl, ⟨parts, fun p hp => ?_, hfst ▸ hall, hs⟩, fun hb => ?_⟩)
        · exact hin _ (hsort.mem_iff.mp (hfst ▸ mem_map_of_mem hp))
        · refine hbytes (hb.trans ?_)
          rw [← spansSize_append, spansSize_perm hall]

/-- Condensing keeps the spans valid and drops no key. -/
theorem maybeCondense_spec (ri : RangeIterator) (maxBytes : Int) (hs : s.Valid) :
    (s.maybeCondense ri maxBytes).1.Valid ∧
      ∀ k, s.Covers k → (s.maybeCondense ri maxBytes).1.Covers k := by
  have hm := valid_mergeAndSort hs
  have hmc : ∀ k, s.Covers k → s.mergeAndSort.Covers k := fun k => (covers_mergeAndSort hs).mpr
  rcases s.maybeCondense_cases ri maxBytes with h | h | ⟨s', h, -, hc, -⟩
  · rw [h]
    exact ⟨hs, fun k hk => hk⟩
  · rw [h]
    exact ⟨hm, hmc⟩
  · rw [h]
    exact ⟨(hc.covers hm).1, fun k hk => (hc.covers hm).2 k (hmc k hk)⟩

end CondensableSpanSet

/-! ## Runs -/

/-- What is done with a set. -/
inductive SetOp where
  | insert (spans : List RawSpan)
  | mergeAndSort
  | maybeCondense (ri : RangeIterator) (maxBytes : Int)
  | estimateSize (spans : List RawSpan) (mergeThresholdBytes : Int)
  | clear

namespace SetOp

/-- The set after an operation. -/
def apply (s : CondensableSpanSet) : SetOp → CondensableSpanSet
  | insert spans => s.insert spans
  | mergeAndSort => s.mergeAndSort
  | maybeCondense ri maxBytes => (s.maybeCondense ri maxBytes).1
  | estimateSize spans mergeThresholdBytes => (s.estimateSize spans mergeThresholdBytes).1
  | clear => {}

/-- The spans inserted since the last `clear`. -/
def inserted (spans : List RawSpan) : SetOp → List RawSpan
  | insert new => spans ++ new
  | clear => []
  | _ => spans

/-- Only valid spans are inserted, with nil for an empty end key. -/
def Valid : SetOp → Prop
  | insert spans => ∀ sp ∈ spans, sp.Valid
  | _ => True

end SetOp

/-- `s` stands for the inserted spans. -/
structure CondensableSpanSet.Tracks (inserted : List RawSpan) (s : CondensableSpanSet) : Prop where
  valid : s.Valid
  covers : ∀ k, Roachpb.Covers (inserted.map RawSpan.toSpan) k → s.Covers k
  faithful : s.condensed = false →
    ∀ k, s.Covers k → Roachpb.Covers (inserted.map RawSpan.toSpan) k
  bytes : s.bytes = spansSize s.s

namespace CondensableSpanSet.Tracks

theorem empty : Tracks [] {} := ⟨by simp [Valid], fun k hk => hk, fun _ k hk => hk, rfl⟩

variable {inserted : List RawSpan} {s : CondensableSpanSet} (h : s.Tracks inserted)

include h

theorem mergeAndSort : s.mergeAndSort.Tracks inserted where
  valid := valid_mergeAndSort h.valid
  covers := fun k hk => (covers_mergeAndSort h.valid).mpr (h.covers k hk)
  faithful := fun hc k hk => h.faithful hc k ((covers_mergeAndSort h.valid).mp hk)
  bytes := by
    unfold CondensableSpanSet.mergeAndSort
    dsimp only
    split_ifs with hlen
    · rfl
    · rw [h.bytes, spansSize_perm (perm_mergeSpans _ (not_not.mp hlen))]

theorem apply {op : SetOp} (hop : op.Valid) : (op.apply s).Tracks (op.inserted inserted) := by
  cases op with
  | insert spans =>
    have hsplit : ∀ k, Roachpb.Covers ((inserted ++ spans).map RawSpan.toSpan) k ↔ _ :=
      fun k => map_append ▸ covers_append
    refine ⟨valid_insert h.valid hop, fun k hk => ?_, fun hc k hk => ?_, ?_⟩
    · exact covers_insert.mpr (((hsplit k).mp hk).imp (h.covers k) id)
    · exact (hsplit k).mpr ((covers_insert.mp hk).imp (h.faithful hc k) id)
    · exact (congrArg (· + _) h.bytes).trans (spansSize_append _ _).symm
  | mergeAndSort => exact h.mergeAndSort
  | maybeCondense ri maxBytes =>
    obtain ⟨hv, hcov⟩ := maybeCondense_spec ri maxBytes h.valid
    simp only [SetOp.apply, SetOp.inserted]
    rcases s.maybeCondense_cases ri maxBytes with he | he | ⟨s', he, hc, -, hb⟩
    · rw [he]
      exact h
    · rw [he]
      exact h.mergeAndSort
    · rw [he] at hv hcov ⊢
      refine ⟨hv, fun k hk => hcov k (h.covers k hk), fun hf => ?_, hb h.mergeAndSort.bytes⟩
      exact absurd (hc.symm.trans hf) Bool.noConfusion
  | estimateSize spans m =>
    simp only [SetOp.apply, SetOp.inserted, estimateSize]
    split_ifs with h₁ h₂ h₃
    · exact h
    all_goals exact h.mergeAndSort
  | clear => exact .empty

theorem run {ops : List SetOp} (hops : ∀ op ∈ ops, op.Valid) :
    (ops.foldl SetOp.apply s).Tracks (ops.foldl SetOp.inserted inserted) := by
  induction ops generalizing s inserted with
  | nil => exact h
  | cons op ops ih =>
    obtain ⟨hop, hops⟩ := forall_mem_cons.mp hops
    exact ih (h.apply hop) hops

end CondensableSpanSet.Tracks

/-- Whatever is done with a set, it covers all that was inserted, and nothing else unless it has
been condensed. Condensing combines spans that start in one range only, and the size is that of
the spans. -/
theorem spanSet_keeps_coverage (ops : List SetOp) (hops : ∀ op ∈ ops, op.Valid) :
    let s := ops.foldl SetOp.apply {}
    let inserted := (ops.foldl SetOp.inserted []).map RawSpan.toSpan
    (∀ k, Covers inserted k → s.Covers k) ∧
      (s.condensed = false → ∀ k, s.Covers k ↔ Covers inserted k) ∧
      (∀ ri maxBytes, (s.maybeCondense ri maxBytes).2 = true →
        Condensed ri s.mergeAndSort.s (s.maybeCondense ri maxBytes).1.s) ∧
      s.bytes = spansSize s.s := by
  have h := CondensableSpanSet.Tracks.empty.run hops
  refine ⟨h.covers, fun hc k => ⟨h.faithful hc k, h.covers k⟩, fun ri maxBytes ht => ?_, h.bytes⟩
  rcases CondensableSpanSet.maybeCondense_cases ri maxBytes with he | he | ⟨s', he, -, hc, -⟩
  · rw [he] at ht
    cases ht
  · rw [he] at ht
    cases ht
  · rw [he]
    exact hc

/-- All keys are in one range. -/
def oneRange : RangeIterator where
  rangeID _ := some 1
  sort l := l.insertionSort fun a b => b.bytes ≤ a.bytes
  perm l := perm_insertionSort _ l
  sorted l := by
    have : Std.Total fun a b : SpanBucket => b.bytes ≤ a.bytes := ⟨fun _ _ => le_total _ _⟩
    have : IsTrans SpanBucket fun a b => b.bytes ≤ a.bytes := ⟨fun _ _ _ h h' => h'.trans h⟩
    exact pairwise_insertionSort _ l

/-- Two keys of one range, condensed, and a range that is merged into them. -/
theorem spanSet_keeps_coverage_two :
    let ops := [SetOp.insert [⟨[2], none⟩, ⟨[4], none⟩], .maybeCondense oneRange 0,
      .insert [⟨[3], some [5]⟩], .mergeAndSort]
    (ops.foldl SetOp.apply {}).s = [⟨[2], some [5]⟩] ∧
      (ops.foldl SetOp.apply {}).bytes = spansSize [⟨[2], some [5]⟩] := by
  intro ops
  have hs : (ops.foldl SetOp.apply {}).s = [⟨[2], some [5]⟩] := by decide +kernel
  refine ⟨hs, hs ▸ (spanSet_keeps_coverage ops ?_).2.2.2⟩
  simp only [ops, forall_mem_cons, SetOp.Valid, not_mem_nil, false_imp_iff, implies_true, and_true]
  decide

/-- Merging loses a key whose end key is empty and not nil, if a range ends at it. -/
theorem spanSet_loses_key :
    let s := (({} : CondensableSpanSet).insert
      [⟨[1], some [2]⟩, ⟨[2], some []⟩]).mergeAndSort
    s.condensed = false ∧ s.asSlice = [⟨[1], [2]⟩] ∧ [2] ∉ (⟨[1], [2]⟩ : Span) := by
  decide

end Cockroach.KvCoord
