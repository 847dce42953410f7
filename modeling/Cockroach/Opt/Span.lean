import Cockroach.Lib.Intervals
import Cockroach.Opt.Key

/-!
# Spans and span lists (`sql/opt/constraint/span.go`, `spans.go`)

A span is a range of keys. A row belongs to it when its leading values are at or after the start
key and at or before the end key (`Span.Admits`). In the order of bounds a span is an interval
and a row a point that is never a bound (`Span.admits_iff`), which gives the spans that
`tryIntersectWith` and `tryUnionWith` return.

* `sortAndMerge_spec`: every span list becomes one with gaps between the spans and the same rows.
-/

namespace Cockroach.Opt

open Lib List Key OpenInterval

inductive SpanBoundary where
  | includeBoundary
  | excludeBoundary
  deriving DecidableEq, Repr

/-- `constraint.Span` -/
structure Span (D : Type) where
  startKey : Key D := []
  startBoundary : SpanBoundary := .includeBoundary
  endKey : Key D := []
  endBoundary : SpanBoundary := .includeBoundary
  deriving DecidableEq, Repr

variable {D : Type} [LinearOrder D]

namespace Span

def startExt (sp : Span D) : KeyExtension :=
  match sp.startBoundary with
  | .includeBoundary => .extendLow
  | .excludeBoundary => .extendHigh

def endExt (sp : Span D) : KeyExtension :=
  match sp.endBoundary with
  | .includeBoundary => .extendHigh
  | .excludeBoundary => .extendLow

/-- `IsUnconstrained`; NULL is the least datum. -/
def isUnconstrained [OrderBot D] (sp : Span D) : Bool :=
  (sp.startKey = [] || sp.startKey = [⊥] && sp.startBoundary = .includeBoundary) &&
    sp.endKey = []

variable (cols : List OrderingColumn) (sp other : Span D)

def compareStarts : Int :=
  Key.compare sp.startExt other.startExt cols sp.startKey other.startKey

def compareEnds : Int :=
  Key.compare sp.endExt other.endExt cols sp.endKey other.endKey

/-- `Span.Compare` -/
def compare : Int :=
  if sp.compareStarts cols other ≠ 0 then sp.compareStarts cols other
  else if sp.compareEnds cols other ≠ 0 then sp.compareEnds cols other
  else 0

/-- The start boundary of this span against the end boundary of the other. -/
def compareStartToEnd : Int :=
  Key.compare sp.startExt other.endExt cols sp.startKey other.endKey

/-- The end boundary of this span against the start boundary of the other. -/
def compareEndToStart : Int :=
  Key.compare sp.endExt other.startExt cols sp.endKey other.startKey

def startsAfter : Bool :=
  0 ≤ sp.compareStartToEnd cols other

def startsStrictlyAfter : Bool :=
  0 < sp.compareStartToEnd cols other

/-- This span with the start boundary of the other. -/
def withStart : Span D :=
  { sp with startKey := other.startKey, startBoundary := other.startBoundary }

/-- This span with the end boundary of the other. -/
def withEnd : Span D :=
  { sp with endKey := other.endKey, endBoundary := other.endBoundary }

/-- `TryIntersectWith` -/
def tryIntersectWith : Option (Span D) :=
  if 0 < sp.compareStarts cols other ∧ 0 ≤ sp.compareStartToEnd cols other then none
  else if sp.compareEnds cols other < 0 ∧ sp.compareEndToStart cols other ≤ 0 then none
  else
    let started := if sp.compareStarts cols other < 0 then sp.withStart other else sp
    some (if 0 < sp.compareEnds cols other then started.withEnd other else started)

/-- Whether `TryUnionWith` finds space between the spans. -/
def apart : Bool :=
  if sp.compareStarts cols other < 0 then sp.compareEndToStart cols other < 0
  else if 0 < sp.compareStarts cols other then other.compareEndToStart cols sp < 0
  else false

/-- `TryUnionWith` -/
def tryUnionWith : Option (Span D) :=
  if sp.apart cols other then none
  else
    let started := if 0 < sp.compareStarts cols other then sp.withStart other else sp
    some (if sp.compareEnds cols other < 0 then started.withEnd other else started)

end Span

/-- `Spans.sortedAndMerged` -/
def sortedAndMerged (cols : List OrderingColumn) : List (Span D) → Bool
  | sp :: next :: spans => next.startsStrictlyAfter cols sp && sortedAndMerged cols (next :: spans)
  | _ => true

/-- The loop of `Spans.SortAndMerge` over the sorted spans. -/
def mergeSorted (cols : List OrderingColumn) (currentSpan : Span D) : List (Span D) → List (Span D)
  | [] => [currentSpan]
  | sp :: spans =>
    if sp.startsStrictlyAfter cols currentSpan then currentSpan :: mergeSorted cols sp spans
    else
      let extended :=
        if currentSpan.compareEnds cols sp < 0 then currentSpan.withEnd sp else currentSpan
      mergeSorted cols extended spans

/-- `Spans.SortAndMerge`. Spans that compare as equal are equal, so that there is one way to
sort them. -/
def sortAndMerge (cols : List OrderingColumn) (spans : List (Span D)) : List (Span D) :=
  if sortedAndMerged cols spans then spans
  else
    match spans.insertionSort fun a b => a.compare cols b ≤ 0 with
    | [] => []
    | sp :: spans => mergeSorted cols sp spans

/-! ## Rows -/

namespace Span

variable (cols : List OrderingColumn) (sp : Span D)

/-- The leading values of the row are within the boundaries of the span. -/
def Admits (row : List D) : Prop :=
  (match sp.startBoundary with
    | .includeBoundary =>
      Key.values cols sp.startKey ≤ Key.values cols (row.take sp.startKey.length)
    | .excludeBoundary =>
      Key.values cols sp.startKey < Key.values cols (row.take sp.startKey.length)) ∧
  match sp.endBoundary with
    | .includeBoundary =>
      Key.values cols (row.take sp.endKey.length) ≤ Key.values cols sp.endKey
    | .excludeBoundary =>
      Key.values cols (row.take sp.endKey.length) < Key.values cols sp.endKey

instance (row : List D) : Decidable (sp.Admits cols row) := by
  unfold Admits
  refine @instDecidableAnd _ _ ?_ ?_
  · cases sp.startBoundary <;> infer_instance
  · cases sp.endBoundary <;> infer_instance

/-- The keys have at most one value for each column. -/
structure Fits : Prop where
  startKey : sp.startKey.length ≤ cols.length
  endKey : sp.endKey.length ≤ cols.length

instance : Decidable (sp.Fits cols) :=
  decidable_of_iff (sp.startKey.length ≤ cols.length ∧ sp.endKey.length ≤ cols.length)
    ⟨fun h => ⟨h.1, h.2⟩, fun h => ⟨h.startKey, h.endKey⟩⟩

def interval : OpenInterval (List (Digit (Directed D))) where
  lo := Key.position cols sp.startKey sp.startExt
  hi := Key.position cols sp.endKey sp.endExt

variable {cols sp} {other sp' : Span D}

theorem compareStarts_eq : sp.compareStarts cols other =
    threeWay (sp.interval cols).lo (other.interval cols).lo := compare_eq ..

theorem compareEnds_eq : sp.compareEnds cols other =
    threeWay (sp.interval cols).hi (other.interval cols).hi := compare_eq ..

theorem compareStartToEnd_eq : sp.compareStartToEnd cols other =
    threeWay (sp.interval cols).lo (other.interval cols).hi := compare_eq ..

theorem compareEndToStart_eq : sp.compareEndToStart cols other =
    threeWay (sp.interval cols).hi (other.interval cols).lo := compare_eq ..

theorem startsStrictlyAfter_iff :
    sp.startsStrictlyAfter cols other = true ↔ (other.interval cols).Before (sp.interval cols) := by
  rw [startsStrictlyAfter, compareStartToEnd_eq, decide_eq_true_eq, threeWay_pos_iff]
  rfl

theorem startsAfter_iff :
    sp.startsAfter cols other = true ↔ (other.interval cols).hi ≤ (sp.interval cols).lo := by
  rw [startsAfter, compareStartToEnd_eq, decide_eq_true_eq, threeWay_nonneg_iff]

section

omit [LinearOrder D]

theorem Fits.withStart (h : sp.Fits cols) (h' : other.Fits cols) : (sp.withStart other).Fits cols :=
  ⟨h'.startKey, h.endKey⟩

theorem Fits.withEnd (h : sp.Fits cols) (h' : other.Fits cols) : (sp.withEnd other).Fits cols :=
  ⟨h.startKey, h'.endKey⟩

theorem interval_ite_withStart (p : Prop) [Decidable p] :
    (if p then sp.withStart other else sp).interval cols =
      ⟨if p then (other.interval cols).lo else (sp.interval cols).lo, (sp.interval cols).hi⟩ := by
  split <;> rfl

theorem interval_ite_withEnd (p : Prop) [Decidable p] :
    (if p then sp.withEnd other else sp).interval cols =
      ⟨(sp.interval cols).lo, if p then (other.interval cols).hi else (sp.interval cols).hi⟩ := by
  split <;> rfl

theorem Fits.ite_withStart (p : Prop) [Decidable p] (h : sp.Fits cols) (h' : other.Fits cols) :
    (if p then sp.withStart other else sp).Fits cols := by
  split
  · exact h.withStart h'
  · exact h

theorem Fits.ite_withEnd (p : Prop) [Decidable p] (h : sp.Fits cols) (h' : other.Fits cols) :
    (if p then sp.withEnd other else sp).Fits cols := by
  split
  · exact h.withEnd h'
  · exact h

end

/-- The overlap of two spans. -/
theorem tryIntersectWith_some (h : sp.tryIntersectWith cols other = some sp') : sp'.interval cols =
      ⟨max (sp.interval cols).lo (other.interval cols).lo,
        min (sp.interval cols).hi (other.interval cols).hi⟩ ∧
    (sp.Fits cols → other.Fits cols → sp'.Fits cols) := by
  unfold tryIntersectWith at h
  split at h
  · cases h
  split at h
  · cases h
  cases h
  refine ⟨?_, fun hf hf' => (hf.ite_withStart _ hf').ite_withEnd _ hf'⟩
  rw [interval_ite_withEnd, interval_ite_withStart]
  simp only [compareStarts_eq, compareEnds_eq, threeWay_neg_iff, threeWay_pos_iff]
  rw [max_def_lt, min_comm, min_def_lt]

/-- Spans that do not overlap. -/
theorem tryIntersectWith_none (h : sp.tryIntersectWith cols other = none) :
    (other.interval cols).hi ≤ (sp.interval cols).lo ∨
      (sp.interval cols).hi ≤ (other.interval cols).lo := by
  unfold tryIntersectWith at h
  rw [compareStarts_eq, compareStartToEnd_eq, compareEnds_eq, compareEndToStart_eq] at h
  split at h
  · rename_i hstart
    exact .inl (threeWay_nonneg_iff.mp hstart.2)
  split at h
  · rename_i hend
    exact .inr (threeWay_nonpos_iff.mp hend.2)
  · cases h

/-- Spans that overlap have a part in common. -/
theorem tryIntersectWith_proper (h : sp.tryIntersectWith cols other = some sp')
    (hsp : (sp.interval cols).Proper) (hother : (other.interval cols).Proper) :
    (sp'.interval cols).Proper := by
  rw [(tryIntersectWith_some h).1]
  unfold tryIntersectWith at h
  split at h
  · cases h
  rename_i hstart
  split at h
  · cases h
  rename_i hend
  rw [compareStarts_eq, compareStartToEnd_eq, threeWay_pos_iff, threeWay_nonneg_iff] at hstart
  rw [compareEnds_eq, compareEndToStart_eq, threeWay_neg_iff, threeWay_nonpos_iff] at hend
  refine max_lt (lt_min hsp ?_) (lt_min ?_ hother)
  · rcases lt_or_ge (other.interval cols).lo (sp.interval cols).lo with hlt | hge
    · exact not_le.mp fun hle => hstart ⟨hlt, hle⟩
    · exact hge.trans_lt hother
  · rcases lt_or_ge (sp.interval cols).hi (other.interval cols).hi with hlt | hge
    · exact not_le.mp fun hle => hend ⟨hlt, hle⟩
    · exact hother.trans_le hge

theorem apart_iff : sp.apart cols other = true ↔ ((sp.interval cols).lo < (other.interval cols).lo ∧
      (sp.interval cols).Before (other.interval cols)) ∨
    ((other.interval cols).lo < (sp.interval cols).lo ∧
      (other.interval cols).Before (sp.interval cols)) := by
  unfold apart
  rw [compareStarts_eq, compareEndToStart_eq, compareEndToStart_eq]
  rcases lt_trichotomy (sp.interval cols).lo (other.interval cols).lo with h | h | h
  · simp [threeWay_of_lt h, h, h.not_gt, threeWay_neg_iff, Before]
  · simp [h]
  · simp [threeWay_of_gt h, h, h.not_gt, threeWay_neg_iff, Before]

theorem tryUnionWith_none : sp.tryUnionWith cols other = none ↔ sp.apart cols other = true := by
  unfold tryUnionWith
  split
  · rename_i h
    exact ⟨fun _ => h, fun _ => rfl⟩
  · rename_i h
    exact ⟨nofun, fun ha => absurd ha h⟩

/-- The hull of two spans that have no space between them. -/
theorem tryUnionWith_some (h : sp.tryUnionWith cols other = some sp') : sp'.interval cols =
      ⟨min (sp.interval cols).lo (other.interval cols).lo,
        max (sp.interval cols).hi (other.interval cols).hi⟩ ∧
    ¬ sp.apart cols other = true ∧ (sp.Fits cols → other.Fits cols → sp'.Fits cols) := by
  unfold tryUnionWith at h
  split at h
  · cases h
  rename_i hapart
  cases h
  refine ⟨?_, hapart, fun hf hf' => (hf.ite_withStart _ hf').ite_withEnd _ hf'⟩
  rw [interval_ite_withEnd, interval_ite_withStart]
  simp only [compareStarts_eq, compareEnds_eq, threeWay_neg_iff, threeWay_pos_iff]
  rw [max_def_lt, min_comm, min_def_lt]

/-! ### Rows as points -/

section Rows

variable [OrderBot D] {row : List D}

/-- Where a row lies among the bounds. -/
def rowPosition (cols : List OrderingColumn) (row : List D) : List (Digit (Directed D)) :=
  point (Sum.inlₗ ⊥) (Key.values cols row)

theorem rowPosition_ne {k : Key D} (hk : k.length ≤ cols.length) (hrow : row.length = cols.length)
    (ext : KeyExtension) : rowPosition cols row ≠ position cols k ext := by
  have hlen : (values cols k).length ≤ (values cols row).length := by
    rw [length_values, length_values, hrow]
    exact hk
  cases ext with
  | extendLow => exact point_ne_bound hlen (.inl rfl)
  | extendHigh => exact point_ne_bound hlen (.inr rfl)

theorem Fits.ne_hi (h : sp.Fits cols) (hrow : row.length = cols.length) :
    rowPosition cols row ≠ (sp.interval cols).hi := rowPosition_ne h.endKey hrow _

/-- The rows of a span are the points of its interval. -/
theorem admits_iff (h : sp.Fits cols) (hrow : row.length = cols.length) :
    sp.Admits cols row ↔ (sp.interval cols).Contains (rowPosition cols row) := by
  have hstart : (values cols sp.startKey).length ≤ (values cols row).length := by
    rw [length_values, length_values, hrow]
    exact h.startKey
  have hend : (values cols sp.endKey).length ≤ (values cols row).length := by
    rw [length_values, length_values, hrow]
    exact h.endKey
  unfold Admits Contains interval rowPosition position startExt endExt
  rw [values_take, values_take]
  refine and_congr ?_ ?_
  · cases sp.startBoundary with
    | includeBoundary =>
      rw [← length_values cols sp.startKey]
      exact (bot_lt_point hstart).symm
    | excludeBoundary =>
      rw [← length_values cols sp.startKey]
      exact (top_lt_point hstart).symm
  · cases sp.endBoundary with
    | includeBoundary =>
      rw [← length_values cols sp.endKey]
      exact (point_lt_top hend).symm
    | excludeBoundary =>
      rw [← length_values cols sp.endKey]
      exact (point_lt_bot hend).symm

/-- The rows of the overlap are the common rows. -/
theorem admits_tryIntersectWith (h : sp.tryIntersectWith cols other = some sp')
    (hsp : sp.Fits cols) (hother : other.Fits cols) (hrow : row.length = cols.length) :
    sp'.Admits cols row ↔ sp.Admits cols row ∧ other.Admits cols row := by
  obtain ⟨heq, hfits⟩ := tryIntersectWith_some h
  rw [admits_iff (hfits hsp hother) hrow, admits_iff hsp hrow, admits_iff hother hrow, heq]
  exact contains_meet

/-- The rows of the hull are the rows of both. -/
theorem admits_tryUnionWith (h : sp.tryUnionWith cols other = some sp')
    (hsp : sp.Fits cols) (hother : other.Fits cols) (hrow : row.length = cols.length) :
    sp'.Admits cols row ↔ sp.Admits cols row ∨ other.Admits cols row := by
  obtain ⟨heq, hapart, hfits⟩ := tryUnionWith_some h
  rw [admits_iff (hfits hsp hother) hrow, admits_iff hsp hrow, admits_iff hother hrow, heq]
  rw [apart_iff, not_or, not_and, not_and] at hapart
  rcases lt_trichotomy (sp.interval cols).lo (other.interval cols).lo with hlt | heq | hgt
  · rw [min_eq_left hlt.le]
    exact contains_extend hlt.le (.inl (not_lt.mp (hapart.1 hlt))) (hsp.ne_hi hrow)
  · rw [min_eq_left heq.le]
    exact contains_extend heq.le (.inr heq) (hsp.ne_hi hrow)
  · rw [min_eq_right hgt.le, max_comm, or_comm]
    exact contains_extend hgt.le (.inl (not_lt.mp (hapart.2 hgt))) (hother.ne_hi hrow)

end Rows

end Span

/-! ## Span lists -/

/-- Some span of the list admits the row. -/
def SpansAdmit (cols : List OrderingColumn) (spans : List (Span D)) (row : List D) : Prop :=
  ∃ sp ∈ spans, sp.Admits cols row

instance (cols : List OrderingColumn) (spans : List (Span D)) (row : List D) :
    Decidable (SpansAdmit cols spans row) :=
  inferInstanceAs (Decidable (∃ sp ∈ spans, sp.Admits cols row))

variable {cols : List OrderingColumn} {spans : List (Span D)} {row : List D}

@[simp] theorem spansAdmit_nil : ¬ SpansAdmit cols ([] : List (Span D)) row := by
  simp [SpansAdmit]

@[simp] theorem spansAdmit_cons {sp : Span D} : SpansAdmit cols (sp :: spans) row ↔
    sp.Admits cols row ∨ SpansAdmit cols spans row := by
  simp [SpansAdmit]

theorem SpansAdmit.perm {spans' : List (Span D)} (h : spans.Perm spans') :
    SpansAdmit cols spans row ↔ SpansAdmit cols spans' row := by
  unfold SpansAdmit
  simp only [h.mem_iff]

/-- Every span starts strictly after the one before it. -/
def InOrder (cols : List OrderingColumn) (spans : List (Span D)) : Prop :=
  spans.IsChain fun sp next => next.startsStrictlyAfter cols sp = true

instance (cols : List OrderingColumn) (spans : List (Span D)) : Decidable (InOrder cols spans) :=
  inferInstanceAs (Decidable (List.IsChain _ _))

theorem sortedAndMerged_iff : sortedAndMerged cols spans = true ↔ InOrder cols spans := by
  unfold InOrder
  fun_induction sortedAndMerged cols spans with
  | case1 sp next spans ih => rw [Bool.and_eq_true, ih, isChain_cons_cons]
  | case2 spans hshort =>
    cases spans with
    | nil => simp
    | cons sp spans => cases spans <;> simp_all

/-- How `Compare` ranks a span. -/
def Span.rank (cols : List OrderingColumn) (sp : Span D) :
    List (Digit (Directed D)) ×ₗ List (Digit (Directed D)) :=
  toLex ((sp.interval cols).lo, (sp.interval cols).hi)

theorem Span.compare_eq {sp other : Span D} :
    sp.compare cols other = threeWay (sp.rank cols) (other.rank cols) := by
  unfold Span.compare Span.rank
  rw [compareStarts_eq, compareEnds_eq]
  rcases lt_trichotomy (sp.interval cols).lo (other.interval cols).lo with h | h | h
  · rw [threeWay_of_lt h, if_pos (by decide)]
    exact (threeWay_of_lt (Prod.Lex.toLex_lt_toLex.mpr (.inl h))).symm
  · rw [h, threeWay_self, if_neg (by decide)]
    rw [threeWay_congr (f := fun hi => toLex ((other.interval cols).lo, hi))]
    · split
      · rfl
      · rename_i hzero
        exact (not_not.mp hzero).symm
    · intro a b
      simp [Prod.Lex.toLex_lt_toLex]
  · rw [threeWay_of_gt h, if_pos (by decide)]
    exact (threeWay_of_gt (Prod.Lex.toLex_lt_toLex.mpr (.inl h))).symm

theorem pairwise_insertionSort_compare (cols : List OrderingColumn) (spans : List (Span D)) :
    (spans.insertionSort fun a b => a.compare cols b ≤ 0).Pairwise
      fun a b => (a.interval cols).lo ≤ (b.interval cols).lo := by
  have hle : ∀ {a b : Span D}, a.compare cols b ≤ 0 ↔ a.rank cols ≤ b.rank cols := by
    intro a b
    rw [Span.compare_eq, threeWay_nonpos_iff]
  have : Std.Total fun a b : Span D => a.compare cols b ≤ 0 :=
    ⟨fun a b => (le_total (a.rank cols) (b.rank cols)).imp hle.mpr hle.mpr⟩
  have : IsTrans (Span D) fun a b => a.compare cols b ≤ 0 :=
    ⟨fun a b c hab hbc => hle.mpr ((hle.mp hab).trans (hle.mp hbc))⟩
  refine (pairwise_insertionSort _ spans).imp fun {a b} hab => ?_
  exact Prod.Lex.monotone_fst _ _ (hle.mp hab)

/-- What merging the sorted spans keeps. -/
structure Merged (cols : List OrderingColumn) (cur : Span D) (spans merged : List (Span D)) :
    Prop where
  inOrder : InOrder cols merged
  head : ∃ sp ∈ merged.head?, (sp.interval cols).lo = (cur.interval cols).lo
  fits : ∀ sp ∈ merged, sp.Fits cols
  rows : ∀ row : List D, row.length = cols.length →
    (SpansAdmit cols merged row ↔ SpansAdmit cols (cur :: spans) row)

theorem mergeSorted_spec [OrderBot D] {cur : Span D}
    (hsorted : (cur :: spans).Pairwise fun a b => (a.interval cols).lo ≤ (b.interval cols).lo)
    (hfits : ∀ sp ∈ cur :: spans, sp.Fits cols) :
    Merged cols cur spans (mergeSorted cols cur spans) := by
  induction spans generalizing cur with
  | nil => exact ⟨.singleton _, ⟨cur, rfl, rfl⟩, hfits, fun _ _ => Iff.rfl⟩
  | cons sp spans ih =>
    obtain ⟨hlo, hrest⟩ := pairwise_cons.mp hsorted
    have hcur : cur.Fits cols := hfits cur mem_cons_self
    have hsp : sp.Fits cols := hfits sp (mem_cons_of_mem _ mem_cons_self)
    have hspans : ∀ sp' ∈ spans, sp'.Fits cols := fun sp' h =>
      hfits sp' (mem_cons_of_mem _ (mem_cons_of_mem _ h))
    rw [mergeSorted]
    split
    · -- a gap: the current span is complete
      rename_i hafter
      have h := ih hrest fun sp' h => hfits sp' (mem_cons_of_mem _ h)
      constructor
      case inOrder =>
        obtain ⟨next, hhead, hlo'⟩ := h.head
        refine isChain_cons.mpr ⟨fun sp' hsp' => ?_, h.inOrder⟩
        obtain rfl := Option.mem_unique hhead hsp'
        rw [Span.startsStrictlyAfter_iff] at hafter ⊢
        rw [Before, hlo']
        exact hafter
      case head => exact ⟨cur, rfl, rfl⟩
      case fits =>
        intro sp' hsp'
        rcases mem_cons.mp hsp' with rfl | hsp'
        · exact hcur
        · exact h.fits sp' hsp'
      case rows =>
        intro row hrow
        rw [spansAdmit_cons, spansAdmit_cons, h.rows row hrow]
    · -- the current span goes on, maybe up to the end of the next one
      rename_i hafter
      rw [Span.startsStrictlyAfter_iff] at hafter
      have heq : (if cur.compareEnds cols sp < 0 then cur.withEnd sp else cur).interval cols =
          ⟨(cur.interval cols).lo, max (cur.interval cols).hi (sp.interval cols).hi⟩ := by
        rw [Span.interval_ite_withEnd]
        simp only [Span.compareEnds_eq, threeWay_neg_iff]
        rw [max_def_lt]
      have hfits' := hcur.ite_withEnd (cur.compareEnds cols sp < 0) hsp
      dsimp only
      generalize (if cur.compareEnds cols sp < 0 then cur.withEnd sp else cur) = cur'
        at heq hfits' ⊢
      have hlo' : (cur'.interval cols).lo = (cur.interval cols).lo := by rw [heq]
      have h : Merged cols cur' spans (mergeSorted cols cur' spans) := by
        refine ih (pairwise_cons.mpr ⟨fun sp' h => ?_, (pairwise_cons.mp hrest).2⟩) ?_
        · rw [hlo']
          exact hlo sp' (mem_cons_of_mem _ h)
        · intro sp' h
          rcases mem_cons.mp h with rfl | h
          · exact hfits'
          · exact hspans sp' h
      constructor
      case inOrder => exact h.inOrder
      case head =>
        obtain ⟨next, hhead, hnext⟩ := h.head
        exact ⟨next, hhead, hnext.trans hlo'⟩
      case fits => exact h.fits
      case rows =>
        intro row hrow
        rw [h.rows row hrow, spansAdmit_cons, spansAdmit_cons, spansAdmit_cons, ← or_assoc,
          Span.admits_iff hfits' hrow, Span.admits_iff hcur hrow, Span.admits_iff hsp hrow, heq,
          contains_extend (hlo sp mem_cons_self) (.inl (not_lt.mp hafter)) (hcur.ne_hi hrow)]

/-- `SortAndMerge` puts the spans in order and keeps the rows, for every span list. -/
theorem sortAndMerge_spec [OrderBot D] (hfits : ∀ sp ∈ spans, sp.Fits cols) :
    InOrder cols (sortAndMerge cols spans) ∧
    (∀ sp ∈ sortAndMerge cols spans, sp.Fits cols) ∧
    ∀ row : List D, row.length = cols.length →
      (SpansAdmit cols (sortAndMerge cols spans) row ↔ SpansAdmit cols spans row) := by
  unfold sortAndMerge
  split
  · rename_i hmerged
    exact ⟨sortedAndMerged_iff.mp hmerged, hfits, fun _ _ => Iff.rfl⟩
  · have hperm := perm_insertionSort (fun a b : Span D => a.compare cols b ≤ 0) spans
    have hsorted := pairwise_insertionSort_compare cols spans
    have hfits' : ∀ sp ∈ spans.insertionSort fun a b => a.compare cols b ≤ 0, sp.Fits cols :=
      fun sp h => hfits sp (hperm.mem_iff.mp h)
    simp only [← SpansAdmit.perm hperm]
    generalize (spans.insertionSort fun a b => a.compare cols b ≤ 0) = sorted at hsorted hfits' ⊢
    cases sorted with
    | nil => exact ⟨.nil, nofun, fun _ _ => Iff.rfl⟩
    | cons sp rest =>
      have h := mergeSorted_spec hsorted hfits'
      exact ⟨h.inOrder, h.fits, h.rows⟩

end Cockroach.Opt
