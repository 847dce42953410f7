import Cockroach.Opt.Span

/-!
# Constraints (`sql/opt/constraint/constraint.go`)

A constraint holds spans in order. `unionWith` merges the spans of two constraints, taking
whichever starts first and absorbing what it reaches; `intersectWith` walks over both lists.

* `Constraint.unionWith_spec`: the merged spans are in order and have the rows of both inputs.
* `Constraint.intersectWith_spec`: the overlaps are in order and have the common rows.

Both take a short cut for an input that `isUnconstrained`. It is mistaken for one constraint,
`[/NULL - ]` over a descending first column, which has only the rows with NULL there.
-/

namespace Cockroach.Opt

open Lib OpenInterval
open List hiding cons_le_cons_iff

/-- A failed assertion or run-time check. -/
inductive Panic where
  /-- `column mismatch` -/
  | columnMismatch
  /-- `correct capacity should have been set when otherConstraints was allocated` -/
  | capacity
  /-- an index or a slice out of range -/
  | outOfRange
  deriving DecidableEq, Repr

/-- `constraint.Constraint` -/
structure Constraint (D : Type) where
  columns : Columns
  spans : List (Span D)
  deriving DecidableEq, Repr

variable {D : Type} [LinearOrder D]

/-! ## Union -/

/-- One try of `UnionWith` to merge the next span of a list: the span, what is left of the list
and whether there was a merge. -/
def absorbHead (cols : List OrderingColumn) (mergeSpan : Span D) :
    List (Span D) → Span D × List (Span D) × Bool
  | [] => (mergeSpan, [], false)
  | sp :: spans =>
    match mergeSpan.tryUnionWith cols sp with
    | some merged => (merged, spans, true)
    | none => (mergeSpan, sp :: spans, false)

/-- The inner loop of `UnionWith`: the span is merged with spans on both sides until neither
merges. Every round but the last uses up a span. -/
def absorb (cols : List OrderingColumn) :
    Nat → Span D → List (Span D) → List (Span D) → Span D × List (Span D) × List (Span D)
  | 0, mergeSpan, left, right => (mergeSpan, left, right)
  | fuel + 1, mergeSpan, left, right =>
    let (afterLeft, left, okLeft) := absorbHead cols mergeSpan left
    let (afterRight, right, okRight) := absorbHead cols afterLeft right
    if okLeft || okRight then absorb cols fuel afterRight left right
    else (afterRight, left, right)

/-- The start of a round of `UnionWith`: the sides are swapped so that the first span is on the
left, and it is taken. -/
def takeFirst (cols : List OrderingColumn) :
    List (Span D) → List (Span D) → Option (Span D × List (Span D) × List (Span D))
  | [], [] => none
  | sp :: left, [] => some (sp, left, [])
  | [], sp :: right => some (sp, right, [])
  | spl :: left, spr :: right =>
    if 0 < spl.compare cols spr then some (spr, right, spl :: left)
    else some (spl, left, spr :: right)

/-- The outer loop of `UnionWith`. Every round uses up a span. -/
def unionLoop (cols : List OrderingColumn) : Nat → List (Span D) → List (Span D) → List (Span D)
  | 0, _, _ => []
  | fuel + 1, left, right =>
    match takeFirst cols left right with
    | none => []
    | some (sp, left, right) =>
      let (mergeSpan, left, right) := absorb cols (left.length + right.length) sp left right
      mergeSpan :: unionLoop cols fuel left right

/-! ## Intersection -/

/-- The loop of `IntersectWith`. Every round uses up a span. -/
def intersectLoop (cols : List OrderingColumn) : Nat → List (Span D) → List (Span D) → List (Span D)
  | fuel + 1, spl :: left, spr :: right =>
    if spl.startsAfter cols spr then intersectLoop cols fuel (spl :: left) right
    else
      match spl.tryIntersectWith cols spr with
      | none => intersectLoop cols fuel left (spr :: right)
      | some mergeSpan =>
        mergeSpan :: intersectLoop cols fuel
          (if spl.compareEnds cols spr ≤ 0 then left else spl :: left)
          (if 0 ≤ spl.compareEnds cols spr then right else spr :: right)
  | _, _, _ => []

namespace Constraint

def isContradiction (c : Constraint D) : Bool := c.spans.isEmpty

def isUnconstrained [OrderBot D] (c : Constraint D) : Bool :=
  match c.spans with
  | [sp] => sp.isUnconstrained
  | _ => false

/-- `UnionWith` -/
def unionWith [OrderBot D] (c other : Constraint D) : Except Panic (Constraint D) :=
  if c.columns ≠ other.columns then throw .columnMismatch
  else if c.isUnconstrained || other.isContradiction then return c
  else
    return { c with
      spans := unionLoop c.columns.toList (c.spans.length + other.spans.length) c.spans
        other.spans }

/-- `IntersectWith` -/
def intersectWith [OrderBot D] (c other : Constraint D) : Except Panic (Constraint D) :=
  if c.columns ≠ other.columns then throw .columnMismatch
  else if c.isContradiction || other.isUnconstrained then return c
  else
    return { c with
      spans := intersectLoop c.columns.toList (c.spans.length + other.spans.length) c.spans
        other.spans }

end Constraint

/-! ## Spans in order -/

/-- Spans of a constraint: the keys fit the columns, no span is empty (`Span.Init`), and each
starts strictly after the one before. -/
structure OrderedSpans (cols : List OrderingColumn) (spans : List (Span D)) : Prop where
  fits : ∀ sp ∈ spans, sp.Fits cols
  proper : ∀ sp ∈ spans, sp.compareStartToEnd cols sp < 0
  inOrder : InOrder cols spans

instance (cols : List OrderingColumn) (spans : List (Span D)) :
    Decidable (OrderedSpans cols spans) :=
  decidable_of_iff ((∀ sp ∈ spans, sp.Fits cols) ∧
      (∀ sp ∈ spans, sp.compareStartToEnd cols sp < 0) ∧ InOrder cols spans)
    ⟨fun h => ⟨h.1, h.2.1, h.2.2⟩, fun h => ⟨h.fits, h.proper, h.inOrder⟩⟩

section Lists

variable {cols : List OrderingColumn} {sp other : Span D} {spans left right : List (Span D)}

theorem Span.proper_iff : sp.compareStartToEnd cols sp < 0 ↔ (sp.interval cols).Proper := by
  rw [compareStartToEnd_eq, threeWay_neg_iff]
  rfl

theorem inOrder_iff : InOrder cols spans ↔
    (spans.map (Span.interval cols)).IsChain Before := by
  unfold InOrder
  simp only [Span.startsStrictlyAfter_iff, isChain_map]

/-- The gaps between adjacent spans of a constraint are gaps between any two. -/
theorem orderedSpans_iff : OrderedSpans cols spans ↔
    (∀ sp ∈ spans, sp.Fits cols) ∧ Ordered (spans.map (Span.interval cols)) := by
  constructor
  · rintro ⟨hfits, hproper, hinOrder⟩
    refine ⟨hfits, ordered_of_isChain ?_ (inOrder_iff.mp hinOrder)⟩
    intro i hi
    obtain ⟨sp, hsp, rfl⟩ := mem_map.mp hi
    exact Span.proper_iff.mp (hproper sp hsp)
  · rintro ⟨hfits, hproper, hbefore⟩
    refine ⟨hfits, fun sp hsp => ?_, inOrder_iff.mpr hbefore.isChain⟩
    exact Span.proper_iff.mpr (hproper _ (mem_map_of_mem hsp))

theorem orderedSpans_nil : OrderedSpans cols ([] : List (Span D)) :=
  ⟨nofun, nofun, .nil⟩

theorem orderedSpans_cons : OrderedSpans cols (sp :: spans) ↔
    sp.Fits cols ∧ (sp.interval cols).Proper ∧
    (∀ sp' ∈ spans, (sp.interval cols).Before (sp'.interval cols)) ∧ OrderedSpans cols spans := by
  rw [orderedSpans_iff, orderedSpans_iff, map_cons, ordered_cons, forall_mem_cons, forall_mem_map]
  tauto

theorem OrderedSpans.suffix {spans' : List (Span D)} (h : OrderedSpans cols spans)
    (hsuffix : spans' <:+ spans) : OrderedSpans cols spans' := by
  obtain ⟨hfits, hordered⟩ := orderedSpans_iff.mp h
  exact orderedSpans_iff.mpr
    ⟨fun sp hsp => hfits sp (hsuffix.mem hsp), hordered.suffix (hsuffix.map _)⟩

/-- All spans start at or after the first one. -/
theorem OrderedSpans.lo_le (h : OrderedSpans cols (sp :: spans)) {sp' : Span D}
    (hsp' : sp' ∈ sp :: spans) : (sp.interval cols).lo ≤ (sp'.interval cols).lo := by
  obtain ⟨-, hproper, hbefore, -⟩ := orderedSpans_cons.mp h
  rcases mem_cons.mp hsp' with rfl | hsp'
  · exact le_rfl
  · exact (lt_trans hproper (hbefore sp' hsp')).le

end Lists

/-! ## What the union loop does -/

section Union

variable [OrderBot D] {cols : List OrderingColumn} {sp sp' m m' : Span D}
  {spans spans' left right left' right' : List (Span D)}

/-- A span has grown by leading spans of a list. -/
structure Grown (cols : List OrderingColumn) (m : Span D) (spans : List (Span D)) (m' : Span D)
    (spans' : List (Span D)) : Prop where
  suffix : spans' <:+ spans
  lo : (m'.interval cols).lo = (m.interval cols).lo
  hi : (m.interval cols).hi ≤ (m'.interval cols).hi
  fits : m'.Fits cols
  rows : ∀ row : List D, row.length = cols.length →
    (m'.Admits cols row ∨ SpansAdmit cols spans' row ↔
      m.Admits cols row ∨ SpansAdmit cols spans row)

omit [OrderBot D] in
theorem Grown.refl (h : m.Fits cols) : Grown cols m spans m spans :=
  ⟨suffix_rfl, rfl, le_rfl, h, fun _ _ => Iff.rfl⟩

omit [OrderBot D] in
/-- The span does not reach the first span of a list. -/
theorem before_of_apart (h : OrderedSpans cols (sp :: spans)) (hapart : m.apart cols sp = true)
    (hlo : (m.interval cols).lo ≤ (sp.interval cols).lo) :
    ∀ sp' ∈ sp :: spans, (m.interval cols).Before (sp'.interval cols) := by
  intro sp' hsp'
  rcases Span.apart_iff.mp hapart with ⟨-, hbefore⟩ | ⟨hlt, -⟩
  · exact lt_of_lt_of_le hbefore (h.lo_le hsp')
  · exact absurd hlt hlo.not_gt

/-- A try either merges the first span or finds a gap. -/
theorem absorbHead_spec (hm : m.Fits cols) (h : OrderedSpans cols spans)
    (hlo : ∀ sp ∈ spans, (m.interval cols).lo ≤ (sp.interval cols).lo) :
    Grown cols m spans (absorbHead cols m spans).1 (absorbHead cols m spans).2.1 ∧
    ((absorbHead cols m spans).2.2 = true ∧
        (absorbHead cols m spans).2.1.length < spans.length ∨
      absorbHead cols m spans = (m, spans, false) ∧
        ∀ sp ∈ spans, (m.interval cols).Before (sp.interval cols)) := by
  cases spans with
  | nil => exact ⟨.refl hm, .inr ⟨rfl, nofun⟩⟩
  | cons sp spans =>
    obtain ⟨hsp, -, -, -⟩ := orderedSpans_cons.mp h
    have hle := hlo sp mem_cons_self
    rw [absorbHead]
    cases hunion : m.tryUnionWith cols sp with
    | none =>
      exact ⟨.refl hm, .inr ⟨rfl, before_of_apart h (Span.tryUnionWith_none.mp hunion) hle⟩⟩
    | some merged =>
      obtain ⟨heq, -, hfits⟩ := Span.tryUnionWith_some hunion
      refine ⟨⟨suffix_cons _ _, ?_, ?_, hfits hm hsp, fun row hrow => ?_⟩,
        .inl ⟨rfl, Nat.lt_succ_self _⟩⟩
      · rw [heq]
        exact min_eq_left hle
      · rw [heq]
        exact le_max_left _ _
      · rw [Span.admits_tryUnionWith hunion hm hsp hrow, spansAdmit_cons, or_assoc]

/-- A span has absorbed all that it reaches on both sides. -/
structure Absorbed (cols : List OrderingColumn) (m : Span D) (left right : List (Span D))
    (m' : Span D) (left' right' : List (Span D)) : Prop where
  suffixLeft : left' <:+ left
  suffixRight : right' <:+ right
  lo : (m'.interval cols).lo = (m.interval cols).lo
  hi : (m.interval cols).hi ≤ (m'.interval cols).hi
  fits : m'.Fits cols
  rows : ∀ row : List D, row.length = cols.length →
    (m'.Admits cols row ∨ SpansAdmit cols left' row ∨ SpansAdmit cols right' row ↔
      m.Admits cols row ∨ SpansAdmit cols left row ∨ SpansAdmit cols right row)
  before : ∀ sp, sp ∈ left' ∨ sp ∈ right' → (m'.interval cols).Before (sp.interval cols)

theorem absorb_spec {fuel : Nat} (hfuel : left.length + right.length ≤ fuel) (hm : m.Fits cols)
    (hleft : OrderedSpans cols left) (hright : OrderedSpans cols right)
    (hlo : ∀ sp, sp ∈ left ∨ sp ∈ right → (m.interval cols).lo ≤ (sp.interval cols).lo) :
    Absorbed cols m left right (absorb cols fuel m left right).1
      (absorb cols fuel m left right).2.1 (absorb cols fuel m left right).2.2 := by
  induction fuel generalizing m left right with
  | zero =>
    obtain rfl : left = [] := eq_nil_of_length_eq_zero (by omega)
    obtain rfl : right = [] := eq_nil_of_length_eq_zero (by omega)
    refine ⟨suffix_rfl, suffix_rfl, rfl, le_rfl, hm, fun _ _ => Iff.rfl, ?_⟩
    rintro sp (h | h) <;> cases h
  | succ fuel ih =>
    obtain ⟨hgrownL, hcaseL⟩ := absorbHead_spec hm hleft fun sp h => hlo sp (.inl h)
    unfold absorb
    generalize hL : absorbHead cols m left = resultL at hgrownL hcaseL ⊢
    obtain ⟨m₁, left₁, okLeft⟩ := resultL
    dsimp only at hgrownL hcaseL ⊢
    obtain ⟨hgrownR, hcaseR⟩ := absorbHead_spec hgrownL.fits hright fun sp h =>
      hgrownL.lo.trans_le (hlo sp (.inr h))
    generalize hR : absorbHead cols m₁ right = resultR at hgrownR hcaseR ⊢
    obtain ⟨m₂, right₁, okRight⟩ := resultR
    dsimp only at hgrownR hcaseR ⊢
    split
    · -- a span was merged; the next round starts with less
      rename_i hok
      have hle := hgrownL.suffix.length_le
      have hle' := hgrownR.suffix.length_le
      have hless : left₁.length + right₁.length ≤ fuel := by
        rcases Bool.or_eq_true _ _ ▸ hok with hok | hok
        · have := (hcaseL.resolve_right fun h => by simp [hok] at h).2
          omega
        · have := (hcaseR.resolve_right fun h => by simp [hok] at h).2
          omega
      have h := ih hless hgrownR.fits (hleft.suffix hgrownL.suffix)
        (hright.suffix hgrownR.suffix) fun sp hsp => by
          rw [hgrownR.lo, hgrownL.lo]
          exact hlo sp (hsp.imp hgrownL.suffix.mem hgrownR.suffix.mem)
      constructor
      case suffixLeft => exact h.suffixLeft.trans hgrownL.suffix
      case suffixRight => exact h.suffixRight.trans hgrownR.suffix
      case lo => exact h.lo.trans (hgrownR.lo.trans hgrownL.lo)
      case hi => exact (hgrownL.hi.trans hgrownR.hi).trans h.hi
      case fits => exact h.fits
      case rows =>
        intro row hrow
        rw [h.rows row hrow, or_left_comm, hgrownR.rows row hrow, ← or_assoc,
          or_comm (a := SpansAdmit cols left₁ row), hgrownL.rows row hrow, or_assoc]
      case before => exact h.before
    · -- neither side was reached
      rename_i hok
      rw [Bool.or_eq_true, not_or] at hok
      obtain ⟨hresult, hbefore⟩ := hcaseL.resolve_left fun h => hok.1 h.1
      obtain ⟨hresult', hbefore'⟩ := hcaseR.resolve_left fun h => hok.2 h.1
      obtain ⟨rfl, rfl, -⟩ : m₁ = m ∧ left₁ = left ∧ okLeft = false := by
        simpa using hresult
      obtain ⟨rfl, rfl, -⟩ : m₂ = m₁ ∧ right₁ = right ∧ okRight = false := by
        simpa using hresult'
      exact ⟨suffix_rfl, suffix_rfl, rfl, le_rfl, hm, fun _ _ => Iff.rfl,
        fun sp h => h.elim (hbefore sp) (hbefore' sp)⟩

omit [OrderBot D] in
theorem takeFirst_none (h : takeFirst cols left right = none) : left = [] ∧ right = [] := by
  unfold takeFirst at h
  split at h
  · exact ⟨rfl, rfl⟩
  · cases h
  · cases h
  · split at h <;> cases h

omit [OrderBot D] in
/-- The first span of two lists is taken from one of them. -/
theorem takeFirst_some (hleft : OrderedSpans cols left) (hright : OrderedSpans cols right)
    (h : takeFirst cols left right = some (m, left', right')) :
    (left = m :: left' ∧ right' = right ∨ right = m :: left' ∧ right' = left) ∧
    ∀ sp, sp ∈ left' ∨ sp ∈ right' → (m.interval cols).lo ≤ (sp.interval cols).lo := by
  unfold takeFirst at h
  split at h
  · cases h
  · cases h
    refine ⟨.inl ⟨rfl, rfl⟩, fun sp hsp => ?_⟩
    exact hleft.lo_le (mem_cons_of_mem _ (hsp.resolve_right not_mem_nil))
  · cases h
    refine ⟨.inr ⟨rfl, rfl⟩, fun sp hsp => ?_⟩
    exact hright.lo_le (mem_cons_of_mem _ (hsp.resolve_right not_mem_nil))
  · rw [Span.compare_eq] at h
    split at h
    · rename_i hgt
      cases h
      have hle := Prod.Lex.monotone_fst _ _ (threeWay_pos_iff.mp hgt).le
      refine ⟨.inr ⟨rfl, rfl⟩, fun sp hsp => ?_⟩
      rcases hsp with hsp | hsp
      · exact hright.lo_le (mem_cons_of_mem _ hsp)
      · exact hle.trans (hleft.lo_le hsp)
    · rename_i hle
      cases h
      have hle := Prod.Lex.monotone_fst _ _ (threeWay_nonpos_iff.mp (not_lt.mp hle))
      refine ⟨.inl ⟨rfl, rfl⟩, fun sp hsp => ?_⟩
      rcases hsp with hsp | hsp
      · exact hleft.lo_le (mem_cons_of_mem _ hsp)
      · exact hle.trans (hright.lo_le hsp)

/-- A list of spans that has the rows of two lists and starts where they do. -/
structure IsUnion (cols : List OrderingColumn) (left right spans : List (Span D)) : Prop where
  ordered : OrderedSpans cols spans
  lo : ∀ p, (∀ sp, sp ∈ left ∨ sp ∈ right → p < (sp.interval cols).lo) →
    ∀ sp ∈ spans, p < (sp.interval cols).lo
  rows : ∀ row : List D, row.length = cols.length →
    (SpansAdmit cols spans row ↔ SpansAdmit cols left row ∨ SpansAdmit cols right row)

omit [OrderBot D] in
/-- One round: a span that has absorbed all that it reaches is before all that comes. -/
theorem Absorbed.isUnion (hm : (m.interval cols).Proper)
    (h : Absorbed cols m left right m' left' right') (hrest : IsUnion cols left' right' spans) :
    IsUnion cols (m :: left) right (m' :: spans) := by
  constructor
  case ordered =>
    refine orderedSpans_cons.mpr ⟨h.fits, ?_, hrest.lo _ h.before, hrest.ordered⟩
    rw [Proper, h.lo]
    exact lt_of_lt_of_le hm h.hi
  case lo =>
    intro p hp sp hsp
    rcases mem_cons.mp hsp with rfl | hsp
    · rw [h.lo]
      exact hp m (.inl mem_cons_self)
    · refine hrest.lo p (fun sp hsp => hp sp ?_) sp hsp
      exact hsp.imp (fun hl => mem_cons_of_mem _ (h.suffixLeft.mem hl)) h.suffixRight.mem
  case rows =>
    intro row hrow
    rw [spansAdmit_cons, hrest.rows row hrow, h.rows row hrow, spansAdmit_cons, or_assoc]

omit [OrderBot D] in
theorem IsUnion.symm (h : IsUnion cols left right spans) : IsUnion cols right left spans where
  ordered := h.ordered
  lo := fun p hp => h.lo p fun sp hsp => hp sp hsp.symm
  rows := fun row hrow => (h.rows row hrow).trans or_comm

/-- The union of two ordered lists. -/
theorem unionLoop_spec {fuel : Nat} (hfuel : left.length + right.length ≤ fuel)
    (hleft : OrderedSpans cols left) (hright : OrderedSpans cols right) :
    IsUnion cols left right (unionLoop cols fuel left right) := by
  have hnil : IsUnion cols ([] : List (Span D)) [] [] :=
    ⟨orderedSpans_nil, fun _ _ => nofun, fun row _ => by simp⟩
  induction fuel generalizing left right with
  | zero =>
    obtain rfl : left = [] := eq_nil_of_length_eq_zero (by omega)
    obtain rfl : right = [] := eq_nil_of_length_eq_zero (by omega)
    exact hnil
  | succ fuel ih =>
    rw [unionLoop]
    cases htake : takeFirst cols left right with
    | none =>
      obtain ⟨rfl, rfl⟩ := takeFirst_none htake
      exact hnil
    | some first =>
      obtain ⟨m, left', right'⟩ := first
      obtain ⟨hfrom, hlo⟩ := takeFirst_some hleft hright htake
      -- by symmetry the first span is on the left
      suffices hmain : OrderedSpans cols (m :: left') → OrderedSpans cols right' →
          left'.length + right'.length ≤ fuel → IsUnion cols (m :: left') right'
            ((absorb cols (left'.length + right'.length) m left' right').1 ::
              unionLoop cols fuel
                (absorb cols (left'.length + right'.length) m left' right').2.1
                (absorb cols (left'.length + right'.length) m left' right').2.2) by
        rcases hfrom with ⟨rfl, rfl⟩ | ⟨rfl, rfl⟩
        · exact hmain hleft hright (by rw [length_cons] at hfuel; omega)
        · exact (hmain hright hleft (by rw [length_cons] at hfuel; omega)).symm
      intro hml hright' hless
      obtain ⟨hfits, hproper, -, hleft'⟩ := orderedSpans_cons.mp hml
      have habsorbed := absorb_spec le_rfl hfits hleft' hright' hlo
      refine habsorbed.isUnion hproper (ih ?_ (hleft'.suffix habsorbed.suffixLeft)
        (hright'.suffix habsorbed.suffixRight))
      have := habsorbed.suffixLeft.length_le
      have := habsorbed.suffixRight.length_le
      omega

end Union

/-! ## What the intersection loop does -/

section Intersection

variable [OrderBot D] {cols : List OrderingColumn} {spl spr m : Span D}
  {spans left right left' right' : List (Span D)} {row : List D}

/-- A list of spans that has the common rows of two lists. -/
structure IsIntersection (cols : List OrderingColumn) (left right spans : List (Span D)) :
    Prop where
  ordered : OrderedSpans cols spans
  lo : ∀ p, (∀ sp ∈ left, p < (sp.interval cols).lo) ∨ (∀ sp ∈ right, p < (sp.interval cols).lo) →
    ∀ sp ∈ spans, p < (sp.interval cols).lo
  rows : ∀ row : List D, row.length = cols.length →
    (SpansAdmit cols spans row ↔ SpansAdmit cols left row ∧ SpansAdmit cols right row)

omit [OrderBot D] in
theorem isIntersection_nil (h : left = [] ∨ right = []) :
    IsIntersection cols left right ([] : List (Span D)) := by
  refine ⟨orderedSpans_nil, fun _ _ => nofun, fun row _ => ?_⟩
  rcases h with rfl | rfl
  · simp
  · simp

/-- Membership in the overlaps of `a, l` and `b, r` once `a` is used up. -/
theorem and_or_of_left {a b l r : Prop} (h : a → ¬ r) :
    a ∧ b ∨ l ∧ (b ∨ r) ↔ (a ∨ l) ∧ (b ∨ r) := by
  tauto

/-- Membership in the overlaps once both `a` and `b` are used up. -/
theorem and_or_of_both {a b l r : Prop} (h : a → ¬ r) (h' : b → ¬ l) :
    a ∧ b ∨ l ∧ r ↔ (a ∨ l) ∧ (b ∨ r) := by
  tauto

/-- A row of a span is in no span that starts at or after its end. -/
theorem not_spansAdmit (hsp : spl.Fits cols) (hspans : ∀ sp ∈ spans, sp.Fits cols)
    (h : ∀ sp ∈ spans, (spl.interval cols).hi ≤ (sp.interval cols).lo)
    (hrow : row.length = cols.length) (hadmits : spl.Admits cols row) :
    ¬ SpansAdmit cols spans row := by
  rintro ⟨sp, hmem, hadmits'⟩
  rw [Span.admits_iff hsp hrow] at hadmits
  rw [Span.admits_iff (hspans sp hmem) hrow] at hadmits'
  exact (hadmits.2.trans_le (h sp hmem)).not_gt hadmits'.1

/-- The overlap of the first spans, followed by the overlaps of lists without the span that
ends first, or without both. -/
theorem IsIntersection.cons (hleft : OrderedSpans cols (spl :: left))
    (hright : OrderedSpans cols (spr :: right)) (hm : spl.tryIntersectWith cols spr = some m)
    (hrest : IsIntersection cols
      (if spl.compareEnds cols spr ≤ 0 then left else spl :: left)
      (if 0 ≤ spl.compareEnds cols spr then right else spr :: right) spans) :
    IsIntersection cols (spl :: left) (spr :: right) (m :: spans) := by
  obtain ⟨hfitsL, hproperL, hbeforeL, hleft'⟩ := orderedSpans_cons.mp hleft
  obtain ⟨hfitsR, hproperR, hbeforeR, hright'⟩ := orderedSpans_cons.mp hright
  obtain ⟨heq, hfits⟩ := Span.tryIntersectWith_some hm
  rw [Span.compareEnds_eq] at hrest
  simp only [threeWay_nonpos_iff, threeWay_nonneg_iff] at hrest
  have hsubL : ∀ sp ∈ (if (spl.interval cols).hi ≤ (spr.interval cols).hi then left
      else spl :: left), sp ∈ spl :: left := by
    intro sp hsp
    split at hsp
    · exact mem_cons_of_mem _ hsp
    · exact hsp
  have hsubR : ∀ sp ∈ (if (spr.interval cols).hi ≤ (spl.interval cols).hi then right
      else spr :: right), sp ∈ spr :: right := by
    intro sp hsp
    split at hsp
    · exact mem_cons_of_mem _ hsp
    · exact hsp
  constructor
  case ordered =>
    refine orderedSpans_cons.mpr ⟨hfits hfitsL hfitsR,
      Span.tryIntersectWith_proper hm hproperL hproperR, hrest.lo _ ?_, hrest.ordered⟩
    rw [heq]
    rcases le_total (spl.interval cols).hi (spr.interval cols).hi with hle | hle
    · left
      rw [if_pos hle]
      exact fun sp hsp => (min_le_left _ _).trans_lt (hbeforeL sp hsp)
    · right
      rw [if_pos hle]
      exact fun sp hsp => (min_le_right _ _).trans_lt (hbeforeR sp hsp)
  case lo =>
    intro p hp sp hsp
    rcases mem_cons.mp hsp with rfl | hsp
    · rw [heq]
      rcases hp with hp | hp
      · exact lt_max_of_lt_left (hp spl mem_cons_self)
      · exact lt_max_of_lt_right (hp spr mem_cons_self)
    · exact hrest.lo p (hp.imp (fun h sp hsp => h sp (hsubL sp hsp))
        fun h sp hsp => h sp (hsubR sp hsp)) sp hsp
  case rows =>
    intro row hrow
    have hL : (spl.interval cols).hi ≤ (spr.interval cols).hi → spl.Admits cols row →
        ¬ SpansAdmit cols right row := fun hle =>
      not_spansAdmit hfitsL hright'.fits (fun sp hsp => hle.trans (hbeforeR sp hsp).le) hrow
    have hR : (spr.interval cols).hi ≤ (spl.interval cols).hi → spr.Admits cols row →
        ¬ SpansAdmit cols left row := fun hle =>
      not_spansAdmit hfitsR hleft'.fits (fun sp hsp => hle.trans (hbeforeL sp hsp).le) hrow
    rw [spansAdmit_cons, Span.admits_tryIntersectWith hm hfitsL hfitsR hrow,
      hrest.rows row hrow, spansAdmit_cons, spansAdmit_cons]
    rcases lt_trichotomy (spl.interval cols).hi (spr.interval cols).hi with hlt | heq | hgt
    · rw [if_pos hlt.le, if_neg hlt.not_ge, spansAdmit_cons]
      exact and_or_of_left (hL hlt.le)
    · rw [if_pos heq.le, if_pos heq.ge]
      exact and_or_of_both (hL heq.le) (hR heq.ge)
    · rw [if_neg hgt.not_ge, if_pos hgt.le, spansAdmit_cons, and_comm (a := spl.Admits cols row),
        and_comm (b := SpansAdmit cols right row), and_comm (b := spr.Admits cols row ∨ _)]
      exact and_or_of_left (hR hgt.le)

/-- The intersection of two ordered lists. -/
theorem intersectLoop_spec {fuel : Nat} (hfuel : left.length + right.length ≤ fuel)
    (hleft : OrderedSpans cols left) (hright : OrderedSpans cols right) :
    IsIntersection cols left right (intersectLoop cols fuel left right) := by
  fun_induction intersectLoop cols fuel left right with
  | case1 fuel spl left spr right hafter ih =>
    -- the right span ends before everything on the left
    obtain ⟨hfitsR, -, -, hright'⟩ := orderedSpans_cons.mp hright
    rw [Span.startsAfter_iff] at hafter
    have h := ih (by simp only [length_cons] at hfuel ⊢; omega) hleft hright'
    refine ⟨h.ordered, fun p hp => h.lo p ?_, fun row hrow => ?_⟩
    · exact hp.imp_right fun h sp hsp => h sp (mem_cons_of_mem _ hsp)
    · have hnot : spr.Admits cols row → ¬ SpansAdmit cols (spl :: left) row :=
        not_spansAdmit hfitsR hleft.fits (fun sp hsp => hafter.trans (hleft.lo_le hsp)) hrow
      rw [h.rows row hrow, @spansAdmit_cons _ _ cols right]
      exact ⟨fun ⟨hl, hr⟩ => ⟨hl, .inr hr⟩,
        fun ⟨hl, hr⟩ => ⟨hl, hr.resolve_left fun ha => hnot ha hl⟩⟩
  | case2 fuel spl left spr right hafter hm ih =>
    -- the left span ends before everything on the right
    obtain ⟨hfitsL, -, -, hleft'⟩ := orderedSpans_cons.mp hleft
    rw [Span.startsAfter_iff] at hafter
    have hend := (Span.tryIntersectWith_none hm).resolve_left hafter
    have h := ih (by simp only [length_cons] at hfuel ⊢; omega) hleft' hright
    refine ⟨h.ordered, fun p hp => h.lo p ?_, fun row hrow => ?_⟩
    · exact hp.imp_left fun h sp hsp => h sp (mem_cons_of_mem _ hsp)
    · have hnot : spl.Admits cols row → ¬ SpansAdmit cols (spr :: right) row :=
        not_spansAdmit hfitsL hright.fits (fun sp hsp => hend.trans (hright.lo_le hsp)) hrow
      rw [h.rows row hrow, @spansAdmit_cons _ _ cols left]
      exact ⟨fun ⟨hl, hr⟩ => ⟨.inr hl, hr⟩,
        fun ⟨hl, hr⟩ => ⟨hl.resolve_left fun ha => hnot ha hr, hr⟩⟩
  | case3 fuel spl left spr right hafter m hm ih =>
    refine IsIntersection.cons hleft hright hm (ih ?_ ?_ ?_)
    · rw [Span.compareEnds_eq]
      simp only [threeWay_nonpos_iff, threeWay_nonneg_iff]
      simp only [length_cons] at hfuel
      rcases le_total (spl.interval cols).hi (spr.interval cols).hi with hle | hle
      · rw [if_pos hle]
        split <;> grind
      · rw [if_pos hle]
        split <;> grind
    · split
      · exact (orderedSpans_cons.mp hleft).2.2.2
      · exact hleft
    · split
      · exact (orderedSpans_cons.mp hright).2.2.2
      · exact hright
  | case4 fuel left right hend =>
    refine isIntersection_nil ?_
    cases left with
    | nil => exact .inl rfl
    | cons spl left =>
      cases right with
      | nil => exact .inr rfl
      | cons spr right =>
        cases fuel with
        | zero => cases hfuel
        | succ fuel => exact (hend _ _ _ _ _ rfl rfl rfl).elim

end Intersection

/-! ## Whole constraints -/

namespace Constraint

/-- The rows of a constraint, each with one value for each column. -/
def Admits (c : Constraint D) (row : List D) : Prop := SpansAdmit c.columns.toList c.spans row

instance (c : Constraint D) (row : List D) : Decidable (c.Admits row) :=
  inferInstanceAs (Decidable (SpansAdmit _ _ _))

/-- The spans of a constraint are in order. -/
def WellFormed (c : Constraint D) : Prop := OrderedSpans c.columns.toList c.spans

instance (c : Constraint D) : Decidable c.WellFormed :=
  inferInstanceAs (Decidable (OrderedSpans _ _))

/-- The constraint `[/NULL - ]` over a descending first column. -/
def OnlyNull [OrderBot D] (c : Constraint D) : Prop :=
  OrderingColumn.descending c.columns.firstCol = true ∧
    c.spans = [{ startKey := [⊥], startBoundary := .includeBoundary }]

instance [OrderBot D] (c : Constraint D) : Decidable c.OnlyNull := instDecidableAnd

section

variable [OrderBot D] {c other : Constraint D} {row : List D}

omit [OrderBot D] in
/-- A proper span without an end key has no end. -/
theorem endBoundary_eq {cols : List OrderingColumn} {sp : Span D}
    (hproper : (sp.interval cols).Proper) (hend : sp.endKey = []) :
    sp.endBoundary = .includeBoundary := by
  cases hboundary : sp.endBoundary with
  | includeBoundary => rfl
  | excludeBoundary =>
    have hhi : (sp.interval cols).hi = [⊥] := by
      simp [Span.interval, hend, Span.endExt, hboundary, KeyExtension.digit]
    rw [Proper, hhi] at hproper
    cases hlo : (sp.interval cols).lo with
    | nil => exact absurd hlo (by simp [Span.interval, Key.position, bound])
    | cons d p =>
      rw [hlo, cons_lt_cons_iff] at hproper
      rcases hproper with h | ⟨-, h⟩
      · exact absurd h not_lt_bot
      · exact absurd h (not_lt_nil p)

omit [OrderBot D] in
/-- A proper span without a start key has no start. -/
theorem startBoundary_eq {cols : List OrderingColumn} {sp : Span D}
    (hproper : (sp.interval cols).Proper) (hstart : sp.startKey = []) :
    sp.startBoundary = .includeBoundary := by
  cases hboundary : sp.startBoundary with
  | includeBoundary => rfl
  | excludeBoundary =>
    have hlo : (sp.interval cols).lo = [⊤] := by
      simp [Span.interval, hstart, Span.startExt, hboundary, KeyExtension.digit]
    rw [Proper, hlo] at hproper
    cases hkey : sp.endKey with
    | nil =>
      have hhi : (sp.interval cols).hi = [sp.endExt.digit] := by
        simp [Span.interval, hkey]
      rw [hhi, cons_lt_cons_iff] at hproper
      rcases hproper with h | ⟨-, h⟩
      · exact absurd h not_top_lt
      · exact absurd h (not_lt_nil [])
    | cons x k =>
      have hhi : (sp.interval cols).hi = .val (OrderingColumn.directed (cols.headD 1) x) ::
          Key.position cols.tail k sp.endExt := by
        simp [Span.interval, hkey]
      rw [hhi, cons_lt_cons_iff] at hproper
      rcases hproper with h | ⟨h, -⟩
      · exact absurd h not_top_lt
      · exact absurd h (Digit.val_lt_top _).ne'

/-- A constraint that counts as unconstrained has all rows, with one exception. -/
theorem admits_of_isUnconstrained (hc : c.WellFormed) (hnull : ¬ c.OnlyNull)
    (h : c.isUnconstrained = true) (hrow : row.length = c.columns.count) : c.Admits row := by
  unfold isUnconstrained at h
  split at h
  case h_2 => cases h
  rename_i sp hspans
  rw [WellFormed, hspans, orderedSpans_cons] at hc
  obtain ⟨-, hproper, -, -⟩ := hc
  unfold Span.isUnconstrained at h
  simp only [Bool.and_eq_true, Bool.or_eq_true, decide_eq_true_eq] at h
  obtain ⟨hstart, hend⟩ := h
  have hendBoundary := endBoundary_eq hproper hend
  rw [Admits, hspans, spansAdmit_cons]
  left
  refine ⟨?_, by simp [hendBoundary, hend]⟩
  rcases hstart with hstart | ⟨hstart, hstartBoundary⟩
  · simp [startBoundary_eq hproper hstart, hstart]
  · -- the first value of the row is at or after NULL
    have hasc : OrderingColumn.descending c.columns.firstCol = false := by
      refine Bool.eq_false_iff.mpr fun hdesc => hnull ⟨hdesc, ?_⟩
      rw [hspans]
      cases sp
      simp_all
    rw [hstartBoundary, hstart]
    cases row with
    | nil => exact absurd hrow (by simp [Columns.count]; omega)
    | cons x row =>
      show Key.values (c.columns.firstCol :: _) [⊥] ≤ Key.values (c.columns.firstCol :: _) [x]
      rw [Key.values_cons, Key.values_cons, cons_le_cons_iff, Key.values_nil, headD_cons,
        OrderingColumn.directed_of_ascending hasc, OrderingColumn.directed_of_ascending hasc,
        Sum.Lex.inl_lt_inl_iff]
      exact (bot_le (a := x)).lt_or_eq.imp_right fun h => ⟨by rw [h], le_rfl⟩

theorem OnlyNull.isUnconstrained (h : c.OnlyNull) : c.isUnconstrained = true := by
  unfold Constraint.isUnconstrained
  rw [h.2]
  simp [Span.isUnconstrained]

/-- `[/NULL - ]` over a descending first column has the rows with NULL there. -/
theorem OnlyNull.admits_iff (h : c.OnlyNull) (hrow : row.length = c.columns.count) :
    c.Admits row ↔ row.head? = some ⊥ := by
  obtain ⟨hdesc, hspans⟩ := h
  cases row with
  | nil => exact absurd hrow (by simp [Columns.count]; omega)
  | cons x row =>
    rw [Admits, hspans, spansAdmit_cons, or_iff_left spansAdmit_nil, head?_cons, Option.some_inj]
    have hstart : Key.values (c.columns.firstCol :: c.columns.otherCols) [⊥] ≤
        Key.values (c.columns.firstCol :: c.columns.otherCols) [x] ↔ x = ⊥ := by
      rw [Key.values_cons, Key.values_cons, cons_le_cons_iff, Key.values_nil, headD_cons,
        OrderingColumn.directed_of_descending hdesc, OrderingColumn.directed_of_descending hdesc,
        Sum.Lex.inr_lt_inr_iff, OrderDual.toDual_lt_toDual]
      rw [or_iff_right not_lt_bot, and_iff_left le_rfl, eq_comm]
      exact ((toLex.injective.comp Sum.inr_injective).comp OrderDual.toDual.injective).eq_iff
    exact ⟨fun hadm => hstart.mp hadm.1, fun hx => ⟨hstart.mpr hx, by simp⟩⟩

omit [OrderBot D] in
theorem not_admits_of_isContradiction (h : c.isContradiction = true) (row : List D) :
    ¬ c.Admits row := by
  have hempty : c.spans = [] := by simpa [isContradiction] using h
  rw [Admits, hempty]
  exact spansAdmit_nil

/-- The rows of the union are the rows of both, unless `c` is mistaken for unconstrained. -/
theorem unionWith_spec (hc : c.WellFormed) (hother : other.WellFormed)
    (hcols : c.columns = other.columns) :
    ∃ u, c.unionWith other = .ok u ∧ u.columns = c.columns ∧ u.WellFormed ∧
      (c.OnlyNull → u = c) ∧
      ∀ row : List D, row.length = c.columns.count →
        (u.Admits row ↔ c.Admits row ∨ ¬ c.OnlyNull ∧ other.Admits row) := by
  unfold unionWith
  rw [if_neg (not_not.mpr hcols)]
  split
  · rename_i hshort
    refine ⟨c, rfl, rfl, hc, fun _ => rfl, fun row hrow => ⟨.inl, fun h => ?_⟩⟩
    rcases h with h | ⟨hnull, h⟩
    · exact h
    rcases Bool.or_eq_true _ _ ▸ hshort with hshort | hshort
    · exact admits_of_isUnconstrained hc hnull hshort hrow
    · exact absurd h (not_admits_of_isContradiction hshort row)
  · rename_i hlong
    have hnull : ¬ c.OnlyNull := fun h => hlong (by rw [h.isUnconstrained, Bool.true_or])
    rw [WellFormed, ← hcols] at hother
    have hunion := unionLoop_spec le_rfl hc hother
    refine ⟨_, rfl, rfl, hunion.ordered, fun h => absurd h hnull, fun row hrow => ?_⟩
    rw [← Columns.length_toList] at hrow
    rw [Admits, hunion.rows row hrow, Admits, Admits, hcols, and_iff_right hnull]

/-- The rows of the intersection are the common rows, unless `other` is mistaken for
unconstrained. -/
theorem intersectWith_spec (hc : c.WellFormed) (hother : other.WellFormed)
    (hcols : c.columns = other.columns) :
    ∃ u, c.intersectWith other = .ok u ∧ u.columns = c.columns ∧ u.WellFormed ∧
      ∀ row : List D, row.length = c.columns.count →
        (u.Admits row ↔ c.Admits row ∧ (other.OnlyNull ∨ other.Admits row)) := by
  unfold intersectWith
  rw [if_neg (not_not.mpr hcols)]
  split
  · rename_i hshort
    refine ⟨c, rfl, rfl, hc, fun row hrow => ?_⟩
    rcases Bool.or_eq_true _ _ ▸ hshort with hshort | hshort
    · have hnone := not_admits_of_isContradiction hshort row
      exact ⟨fun h => absurd h hnone, And.left⟩
    · rw [hcols] at hrow
      refine ⟨fun h => ⟨h, or_iff_not_imp_left.mpr fun hnull => ?_⟩, And.left⟩
      exact admits_of_isUnconstrained hother hnull hshort hrow
  · rename_i hlong
    have hnull : ¬ other.OnlyNull := fun h => hlong (by rw [h.isUnconstrained, Bool.or_true])
    rw [WellFormed, ← hcols] at hother
    have hmeet := intersectLoop_spec le_rfl hc hother
    refine ⟨_, rfl, rfl, hmeet.ordered, fun row hrow => ?_⟩
    rw [← Columns.length_toList] at hrow
    rw [Admits, hmeet.rows row hrow, Admits, Admits, hcols, or_iff_right hnull]

end

end Constraint

end Cockroach.Opt
