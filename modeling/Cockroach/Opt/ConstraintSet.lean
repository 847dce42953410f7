import Cockroach.Lib.Outcome
import Cockroach.Opt.Constraint

/-!
# Constraint sets (`sql/opt/constraint/constraint_set.go`)

A set is a conjunction of constraints over different column lists, sorted by columns.
`Set.Intersect` and `Set.Union` merge two sorted lists into a slice whose capacity is fixed when
its second element is stored.

* `SetRef.intersect_spec`, `SetRef.union_spec`: the merged sets.
* `constraint_algebra`: unions and intersections of constraints are exact, sorting and merging
  keeps the rows, and sets are merged without running out of capacity.
* `unionWith_loses_rows`: the constraint that `IsUnconstrained` mistakes.
-/

namespace Cockroach.Opt

open Lib
open List hiding set

variable {D : Type}

/-! ## Sets -/

/-- `compareConstraintsByCols` on the columns, which are 32-bit numbers. -/
def compareCols : List OrderingColumn → List OrderingColumn → Int
  | l :: left, r :: right =>
    if (l - r).bmod (2 ^ 32) ≠ 0 then (l - r).bmod (2 ^ 32) else compareCols left right
  | left, right => (left.length : Int) - right.length

def compareConstraintsByCols (left right : Constraint D) : Int :=
  compareCols left.columns.toList right.columns.toList

/-- `constraint.Set`: the constraints, and the capacity of the slice that holds all but the first
one, once it is allocated. -/
structure ConstraintSet (D : Type) where
  constraints : List (Constraint D) := []
  otherCap : Option Nat := none
  deriving DecidableEq, Repr

namespace ConstraintSet

/-- `allocConstraint`, with the constraint that is then copied into the slot. -/
def allocConstraint (s : ConstraintSet D) (capacity : Nat) (c : Constraint D) :
    Except Panic (ConstraintSet D) :=
  if s.constraints.length = 0 then return { s with constraints := s.constraints ++ [c] }
  else
    match s.otherCap with
    | none =>
      if capacity < 1 then throw .outOfRange
      else return { constraints := s.constraints ++ [c], otherCap := some capacity }
    | some cap =>
      if cap < capacity then throw .capacity
      else if cap < s.constraints.length then throw .outOfRange
      else return { s with constraints := s.constraints ++ [c] }

def undoAllocConstraint (s : ConstraintSet D) : ConstraintSet D :=
  { s with constraints := s.constraints.dropLast }

/-- The last slot after its constraint has changed. -/
def setLast (s : ConstraintSet D) (c : Constraint D) : ConstraintSet D :=
  { s with constraints := s.constraints.dropLast ++ [c] }

end ConstraintSet

/-- A `*constraint.Set`: the variables `Unconstrained` and `Contradiction` are told apart from
other sets by their address. -/
inductive SetRef (D : Type) where
  | unconstrained
  | contradiction
  | fresh (s : ConstraintSet D)
  deriving DecidableEq, Repr

/-- The constraints that one round of `Set.Intersect` takes. -/
inductive Turn (D : Type) where
  | done
  | one (c : Constraint D) (s other : List (Constraint D))
  | both (c o : Constraint D) (s other : List (Constraint D))

def takeTurn : List (Constraint D) → List (Constraint D) → Turn D
  | [], [] => .done
  | c :: s, [] => .one c s []
  | [], o :: other => .one o [] other
  | c :: s, o :: other =>
    if compareConstraintsByCols c o = 0 then .both c o s other
    else if compareConstraintsByCols c o < 0 then .one c s (o :: other)
    else .one o (c :: s) other

section

variable [LinearOrder D] [OrderBot D]

/-- The loop of `Set.Intersect`, over what is left on both sides. -/
def intersectSets : Nat → ConstraintSet D → List (Constraint D) → List (Constraint D) →
    Except Panic (SetRef D)
  | 0, mergeSet, _, _ => return .fresh mergeSet
  | fuel + 1, mergeSet, s, other =>
    match takeTurn s other with
    | .done => return .fresh mergeSet
    | .one c s' other' => do
        let mergeSet ← mergeSet.allocConstraint (s.length + other.length) c
        intersectSets fuel mergeSet s' other'
    | .both c o s' other' => do
        let slot ← mergeSet.allocConstraint (s.length + other.length) c
        let merge ← c.intersectWith o
        if merge.isContradiction then return .contradiction
        else intersectSets fuel (slot.setLast merge) s' other'

/-- The loop of `Set.Union`, over what is left on both sides. -/
def unionSets : Nat → ConstraintSet D → List (Constraint D) → List (Constraint D) →
    Except Panic (SetRef D)
  | fuel + 1, mergeSet, c :: s, o :: other =>
    if compareConstraintsByCols c o < 0 then unionSets fuel mergeSet s (o :: other)
    else if 0 < compareConstraintsByCols c o then unionSets fuel mergeSet (c :: s) other
    else do
      let slot ← mergeSet.allocConstraint ((c :: s).length + (o :: other).length) c
      let merge ← c.unionWith o
      unionSets fuel
        (if merge.isUnconstrained then slot.undoAllocConstraint else slot.setLast merge) s other
  | _, mergeSet, _, _ => return .fresh mergeSet

namespace SetRef

omit [LinearOrder D] [OrderBot D] in
/-- The constraints of a set. -/
def constraints : SetRef D → List (Constraint D)
  | .fresh s => s.constraints
  | _ => []

def isUnconstrained : SetRef D → Bool
  | .unconstrained => true
  | .contradiction => false
  | .fresh s => s.constraints.isEmpty

/-- `Set.Intersect` -/
def intersect (s other : SetRef D) : Except Panic (SetRef D) :=
  if s = .contradiction ∨ other = .contradiction then return .contradiction
  else if s.isUnconstrained then return other
  else if other.isUnconstrained then return s
  else
    intersectSets (s.constraints.length + other.constraints.length) {} s.constraints
      other.constraints

/-- `Set.Union` -/
def union (s other : SetRef D) : Except Panic (SetRef D) :=
  if s = .contradiction then return other
  else if other = .contradiction then return s
  else if s.isUnconstrained || other.isUnconstrained then return .unconstrained
  else
    unionSets (s.constraints.length + other.constraints.length) {} s.constraints
      other.constraints

end SetRef

end

/-! ## Columns in order -/

/-- The differences of the columns are 32-bit numbers. -/
def SmallCols (cols : List OrderingColumn) : Prop := ∀ c ∈ cols, -2 ^ 30 < c ∧ c < 2 ^ 30

instance (cols : List OrderingColumn) : Decidable (SmallCols cols) := List.decidableBAll _ _

theorem bmod_sub {l r : Int} (hl : -2 ^ 30 < l ∧ l < 2 ^ 30) (hr : -2 ^ 30 < r ∧ r < 2 ^ 30) :
    (l - r).bmod (2 ^ 32) = l - r := by
  apply Int.bmod_eq_of_le_mul_two <;> omega

/-- Columns are compared lexicographically. -/
theorem compareCols_cases {left right : List Int} (hleft : SmallCols left)
    (hright : SmallCols right) : (compareCols left right < 0 ↔ left < right) ∧
      (compareCols left right = 0 ↔ left = right) := by
  induction left generalizing right with
  | nil =>
    cases right with
    | nil => simp [compareCols]
    | cons r right =>
      have hneg : compareCols [] (r :: right) < 0 := by
        simp only [compareCols, length_nil, length_cons]
        omega
      exact ⟨iff_of_true hneg (nil_lt_cons _ _), iff_of_false hneg.ne nofun⟩
  | cons l left ih =>
    cases right with
    | nil =>
      have hpos : 0 < compareCols (l :: left) [] := by
        simp only [compareCols, length_nil, length_cons]
        omega
      exact ⟨iff_of_false hpos.not_gt (not_lt_nil _), iff_of_false hpos.ne' nofun⟩
    | cons r right =>
      obtain ⟨hl, hleft'⟩ := forall_mem_cons.mp hleft
      obtain ⟨hr, hright'⟩ := forall_mem_cons.mp hright
      rw [compareCols, bmod_sub hl hr, cons_lt_cons_iff, cons.injEq]
      rcases lt_trichotomy l r with h | rfl | h
      · have hne : l - r ≠ 0 := by omega
        rw [if_pos hne]
        exact ⟨iff_of_true (by omega) (.inl h), iff_of_false hne fun heq => h.ne heq.1⟩
      · simpa using ih hleft' hright'
      · have hne : l - r ≠ 0 := by omega
        rw [if_pos hne]
        refine ⟨iff_of_false (by omega) ?_, iff_of_false hne fun heq => h.ne' heq.1⟩
        rintro (hlt | ⟨heq, -⟩)
        · exact hlt.not_gt h
        · exact h.ne' heq

/-- Constraints over different columns, in the order of their columns. -/
def SortedByCols (s : List (Constraint D)) : Prop :=
  s.Pairwise fun c d => compareConstraintsByCols c d < 0

instance (s : List (Constraint D)) : Decidable (SortedByCols s) :=
  inferInstanceAs (Decidable (List.Pairwise _ _))

/-- The columns of all constraints are small. -/
def AllSmall (s : List (Constraint D)) : Prop := ∀ c ∈ s, SmallCols c.columns.toList

instance (s : List (Constraint D)) : Decidable (AllSmall s) := List.decidableBAll _ _

section Sorted

variable {s other s' other' : List (Constraint D)} {c o : Constraint D}

theorem compareConstraintsByCols_lt (hc : SmallCols c.columns.toList)
    (ho : SmallCols o.columns.toList) :
    compareConstraintsByCols c o < 0 ↔ c.columns.toList < o.columns.toList :=
  (compareCols_cases hc ho).1

theorem compareConstraintsByCols_eq (hc : SmallCols c.columns.toList)
    (ho : SmallCols o.columns.toList) :
    compareConstraintsByCols c o = 0 ↔ c.columns = o.columns := by
  refine (compareCols_cases hc ho).2.trans ⟨fun h => ?_, fun h => by rw [h]⟩
  obtain ⟨h, h'⟩ := cons.inj h
  rcases c with ⟨⟨_, _⟩, _⟩
  rcases o with ⟨⟨_, _⟩, _⟩
  simp_all

theorem sortedByCols_iff (hs : AllSmall s) :
    SortedByCols s ↔ s.Pairwise fun c d => c.columns.toList < d.columns.toList :=
  List.Pairwise.iff_of_mem fun hc hd => compareConstraintsByCols_lt (hs _ hc) (hs _ hd)

/-- The columns of all constraints come after those of `c`. -/
def ColsAfter (c : Constraint D) (s : List (Constraint D)) : Prop :=
  ∀ d ∈ s, c.columns.toList < d.columns.toList

theorem sortedByCols_cons (hs : AllSmall (c :: s)) :
    SortedByCols (c :: s) ↔ ColsAfter c s ∧ SortedByCols s := by
  rw [sortedByCols_iff hs, sortedByCols_iff (forall_mem_cons.mp hs).2, pairwise_cons]
  rfl

theorem ColsAfter.trans (h : c.columns.toList < o.columns.toList) (ho : ColsAfter o s) :
    ColsAfter c s := fun d hd => h.trans (ho d hd)

/-- What a round of `Set.Intersect` takes comes before everything that is left. -/
inductive TakesTurn (s other : List (Constraint D)) : Turn D → Prop
  | done (hs : s = []) (hother : other = []) : TakesTurn s other .done
  | one {c : Constraint D} {s' other' : List (Constraint D)}
      (hfrom : s = c :: s' ∧ other = other' ∨ other = c :: other' ∧ s = s')
      (hs : ColsAfter c s') (hother : ColsAfter c other') : TakesTurn s other (.one c s' other')
  | both {c o : Constraint D} {s' other' : List (Constraint D)} (hs : s = c :: s')
      (hother : other = o :: other')
      (hcols : c.columns = o.columns) (hafter : ColsAfter c s') (hafter' : ColsAfter c other') :
      TakesTurn s other (.both c o s' other')

theorem takeTurn_spec (hs : SortedByCols s) (hother : SortedByCols other) (hsmall : AllSmall s)
    (hsmall' : AllSmall other) : TakesTurn s other (takeTurn s other) := by
  have hafter : ∀ {c : Constraint D} {s}, SortedByCols (c :: s) → AllSmall (c :: s) →
      ColsAfter c s := fun h hsmall => ((sortedByCols_cons hsmall).mp h).1
  unfold takeTurn
  split
  · exact .done rfl rfl
  · exact .one (.inl ⟨rfl, rfl⟩) (hafter hs hsmall) nofun
  · exact .one (.inr ⟨rfl, rfl⟩) nofun (hafter hother hsmall')
  · have hafter₁ := hafter hs hsmall
    have hafter₂ := hafter hother hsmall'
    have hc := (forall_mem_cons.mp hsmall).1
    have ho := (forall_mem_cons.mp hsmall').1
    split
    · rename_i heq
      have hcols := (compareConstraintsByCols_eq hc ho).mp heq
      refine .both rfl rfl hcols hafter₁ fun d hd => ?_
      rw [hcols]
      exact hafter₂ d hd
    · rename_i hne
      rw [compareConstraintsByCols, (compareCols_cases hc ho).2] at hne
      split
      · rename_i hlt
        have hlt := (compareConstraintsByCols_lt hc ho).mp hlt
        exact .one (.inl ⟨rfl, rfl⟩) hafter₁
          (forall_mem_cons.mpr ⟨hlt, hafter₂.trans hlt⟩)
      · rename_i hge
        rw [compareConstraintsByCols_lt hc ho, not_lt] at hge
        have hlt := hge.lt_of_ne (Ne.symm hne)
        exact .one (.inr ⟨rfl, rfl⟩)
          (forall_mem_cons.mpr ⟨hlt, hafter₁.trans hlt⟩) hafter₂

end Sorted

/-! ## Capacity -/

namespace ConstraintSet

variable {s : ConstraintSet D} {c : Constraint D} {n m : Nat}

/-- There is room for `n` more constraints. -/
structure Room (s : ConstraintSet D) (n : Nat) : Prop where
  none : s.otherCap = none → s.constraints.length ≤ 1
  some : ∀ cap, s.otherCap = some cap → s.constraints.length - 1 + n ≤ cap

theorem Room.mono (h : s.Room n) (hle : m ≤ n) : s.Room m :=
  ⟨h.none, fun cap hcap => (by omega : _ ≤ s.constraints.length - 1 + n).trans (h.some cap hcap)⟩

theorem room_empty : ({} : ConstraintSet D).Room n := ⟨fun _ => Nat.zero_le _, nofun⟩

/-- With room a slot is allocated, and it may be given back. -/
theorem Room.alloc (h : s.Room n) (hn : 0 < n) : ∃ s', s.allocConstraint n c = .ok s' ∧
    s'.constraints = s.constraints ++ [c] ∧ s'.Room (n - 1) ∧
    s'.undoAllocConstraint.Room (n - 1) := by
  unfold allocConstraint
  split
  · rename_i hlen
    refine ⟨_, rfl, rfl, ⟨fun _ => by simp [hlen], fun cap hcap => ?_⟩,
      ⟨fun _ => by simp [undoAllocConstraint, hlen], fun cap hcap => ?_⟩⟩
    · have := h.some cap hcap
      simp [hlen]
      omega
    · have := h.some cap hcap
      simp [undoAllocConstraint, hlen]
      omega
  · rename_i hlen
    split
    · rename_i hcap
      have hone := h.none hcap
      rw [if_neg (by omega)]
      refine ⟨_, rfl, rfl, ⟨nofun, fun cap hcap => ?_⟩, ⟨nofun, fun cap hcap => ?_⟩⟩
      · cases hcap
        simp
        omega
      · cases hcap
        simp [undoAllocConstraint]
        omega
    · rename_i cap hcap
      have hroom := h.some cap hcap
      rw [if_neg (by omega), if_neg (by omega)]
      refine ⟨_, rfl, rfl, ⟨fun hnone => ?_, fun cap' hcap' => ?_⟩,
        ⟨fun hnone => ?_, fun cap' hcap' => ?_⟩⟩
      · exact absurd (hcap.symm.trans hnone) nofun
      · obtain rfl := Option.some.inj (hcap.symm.trans hcap')
        simp
        omega
      · exact absurd (hcap.symm.trans hnone) nofun
      · obtain rfl := Option.some.inj (hcap.symm.trans hcap')
        simp [undoAllocConstraint]
        omega

theorem Room.setLast (h : s.Room n) (hs : s.constraints ≠ []) : (s.setLast c).Room n := by
  have hlen : (s.setLast c).constraints.length = s.constraints.length := by
    have := length_pos_of_ne_nil hs
    simp [ConstraintSet.setLast]
    omega
  exact ⟨fun hnone => hlen ▸ h.none hnone, fun cap hcap => hlen ▸ h.some cap hcap⟩

end ConstraintSet

/-! ## What the loops return -/

section Loops

variable [LinearOrder D] {s other s' other' rest : List (Constraint D)} {c o u : Constraint D}
  {row : ColumnID → D}

/-- A constraint admits a row that gives a value to every column. -/
def Constraint.AdmitsRow (c : Constraint D) (row : ColumnID → D) : Prop :=
  c.Admits (c.columns.toList.map fun col => row (OrderingColumn.id col))

/-- All constraints admit the row. -/
def AllAdmit (s : List (Constraint D)) (row : ColumnID → D) : Prop := ∀ c ∈ s, c.AdmitsRow row

theorem allAdmit_cons : AllAdmit (c :: s) row ↔ c.AdmitsRow row ∧ AllAdmit s row :=
  forall_mem_cons

/-- Constraints of a set, all over small columns. -/
structure Usable (s : List (Constraint D)) : Prop where
  wellFormed : ∀ c ∈ s, c.WellFormed
  sorted : SortedByCols s
  small : AllSmall s

instance (s : List (Constraint D)) : Decidable (Usable s) :=
  decidable_of_iff ((∀ c ∈ s, c.WellFormed) ∧ SortedByCols s ∧ AllSmall s)
    ⟨fun h => ⟨h.1, h.2.1, h.2.2⟩, fun h => ⟨h.wellFormed, h.sorted, h.small⟩⟩

theorem Usable.tail (h : Usable (c :: s)) : Usable s where
  wellFormed := (forall_mem_cons.mp h.wellFormed).2
  sorted := ((sortedByCols_cons h.small).mp h.sorted).2
  small := (forall_mem_cons.mp h.small).2

/-- Sorted constraints over columns of two lists. -/
structure Merges (s other rest : List (Constraint D)) : Prop where
  wellFormed : ∀ c ∈ rest, c.WellFormed
  sorted : SortedByCols rest
  cols : ∀ c ∈ rest, ∃ d, (d ∈ s ∨ d ∈ other) ∧ c.columns = d.columns

theorem merges_nil : Merges s other [] := ⟨nofun, .nil, nofun⟩

/-- The next constraint is over columns before everything that is left. -/
theorem Merges.cons (h : Merges s' other' rest) (hs : AllSmall s) (hother : AllSmall other)
    (hsub : ∀ d, d ∈ s' ∨ d ∈ other' → d ∈ s ∨ d ∈ other) (hu : u.WellFormed)
    (hc : c ∈ s ∨ c ∈ other) (hcols : u.columns = c.columns) (hafter : ColsAfter c s')
    (hafter' : ColsAfter c other') : Merges s other (u :: rest) := by
  have hrest : ∀ d ∈ rest, ∃ e, (e ∈ s ∨ e ∈ other) ∧ d.columns = e.columns := by
    intro d hd
    obtain ⟨e, he, heq⟩ := h.cols d hd
    exact ⟨e, hsub e he, heq⟩
  have hall : ∀ d ∈ u :: rest, ∃ e, (e ∈ s ∨ e ∈ other) ∧ d.columns = e.columns :=
    forall_mem_cons.mpr ⟨⟨c, hc, hcols⟩, hrest⟩
  have hsmall : AllSmall (u :: rest) := by
    intro d hd
    obtain ⟨e, he, heq⟩ := hall d hd
    rw [heq]
    exact he.elim (hs e) (hother e)
  refine ⟨forall_mem_cons.mpr ⟨hu, h.wellFormed⟩,
    (sortedByCols_cons hsmall).mpr ⟨fun d hd => ?_, h.sorted⟩, hall⟩
  obtain ⟨e, he, heq⟩ := h.cols d hd
  rw [hcols, heq]
  exact he.elim (hafter e) (hafter' e)

theorem Merges.mono (h : Merges s' other' rest)
    (hsub : ∀ d, d ∈ s' ∨ d ∈ other' → d ∈ s ∨ d ∈ other) : Merges s other rest where
  wellFormed := h.wellFormed
  sorted := h.sorted
  cols := fun c hc => (h.cols c hc).imp fun d hd => ⟨hsub d hd.1, hd.2⟩

/-- The result of the loop of `Set.Union` after the constraints `done` were merged. -/
def Unites (done s other : List (Constraint D)) (set : ConstraintSet D) : Prop :=
  ∃ rest, set.constraints = done ++ rest ∧ Merges s other rest ∧
    ∀ row, AllAdmit s row ∨ AllAdmit other row → AllAdmit rest row

variable {mergeSet : ConstraintSet D}

theorem unites_done : Unites mergeSet.constraints s other mergeSet :=
  ⟨[], by simp, merges_nil, fun _ _ => nofun⟩

/-- Constraints may be left out of a union. -/
theorem Unites.mono {done : List (Constraint D)} {set : ConstraintSet D}
    (h : Unites done s' other' set) (hs : ∀ d ∈ s', d ∈ s) (hother : ∀ d ∈ other', d ∈ other) :
    Unites done s other set := by
  obtain ⟨rest, hset, hmerges, hrows⟩ := h
  refine ⟨rest, hset, hmerges.mono fun d => Or.imp (hs d) (hother d), fun row hrow => ?_⟩
  exact hrows row (hrow.imp (fun h d hd => h d (hs d hd)) fun h d hd => h d (hother d hd))

theorem admitsRow_iff {op : Prop → Prop → Prop} (hu : ∀ r : List D, r.length = c.columns.count →
    (u.Admits r ↔ op (c.Admits r) (o.Admits r))) (hcols : u.columns = c.columns)
    (hcols' : c.columns = o.columns) :
    u.AdmitsRow row ↔ op (c.AdmitsRow row) (o.AdmitsRow row) := by
  unfold Constraint.AdmitsRow
  rw [← hcols', hcols]
  exact hu _ (by rw [length_map, Columns.length_toList])

variable [OrderBot D]

/-- A constraint that a constraint over the same columns is not intersected with, since it is
mistaken for unconstrained. -/
def Ignored (s : List (Constraint D)) (o : Constraint D) : Prop :=
  o.OnlyNull ∧ ∃ c ∈ s, c.columns = o.columns

/-- All constraints that are not ignored admit the row. -/
def AdmitsBut (s other : List (Constraint D)) (row : ColumnID → D) : Prop :=
  ∀ o ∈ other, Ignored s o ∨ o.AdmitsRow row

theorem not_ignored (h : ColsAfter o s) : ¬ Ignored s o := by
  rintro ⟨-, c, hc, heq⟩
  exact absurd (congrArg Columns.toList heq) (h c hc).ne'

theorem admitsBut_cons :
    AdmitsBut s (o :: other) row ↔ (Ignored s o ∨ o.AdmitsRow row) ∧ AdmitsBut s other row :=
  forall_mem_cons

/-- A constraint over columns before all others has none ignored. -/
theorem admitsBut_cons_left (h : ColsAfter c other) :
    AdmitsBut (c :: s) other row ↔ AdmitsBut s other row := by
  refine forall₂_congr fun o ho => or_congr_left (and_congr_right fun _ => ?_)
  rw [exists_mem_cons_iff, or_iff_right]
  intro heq
  exact absurd (congrArg Columns.toList heq) (h o ho).ne

/-- The result of the loop of `Set.Intersect` after the constraints `done` were merged. -/
def Intersects (done s other : List (Constraint D)) : SetRef D → Prop
  | .unconstrained => False
  | .contradiction => ∀ row, ¬ (AllAdmit s row ∧ AdmitsBut s other row)
  | .fresh set => ∃ rest, set.constraints = done ++ rest ∧ Merges s other rest ∧
      ∀ row, AllAdmit rest row ↔ AllAdmit s row ∧ AdmitsBut s other row

/-- One round of `Set.Intersect`, which merges `u`. -/
theorem Intersects.cons {done : List (Constraint D)} {r : SetRef D}
    (h : Intersects (done ++ [u]) s' other' r) (hs : AllSmall s) (hother : AllSmall other)
    (hsub : ∀ d, d ∈ s' ∨ d ∈ other' → d ∈ s ∨ d ∈ other) (hu : u.WellFormed)
    (hc : c ∈ s ∨ c ∈ other) (hcols : u.columns = c.columns) (hafter : ColsAfter c s')
    (hafter' : ColsAfter c other')
    (hrows : ∀ row, AllAdmit s row ∧ AdmitsBut s other row ↔
      u.AdmitsRow row ∧ AllAdmit s' row ∧ AdmitsBut s' other' row) : Intersects done s other r := by
  cases r with
  | unconstrained => exact h
  | contradiction => exact fun row hrow => h row ((hrows row).mp hrow).2
  | fresh set =>
    obtain ⟨rest, hset, hmerges, hrest⟩ := h
    refine ⟨u :: rest, by rw [hset, append_assoc]; rfl,
      hmerges.cons hs hother hsub hu hc hcols hafter hafter', fun row => ?_⟩
    rw [allAdmit_cons, hrest row, hrows row]

theorem intersectSets_spec {fuel : Nat}
    (hfuel : s.length + other.length ≤ fuel) (hroom : mergeSet.Room (s.length + other.length))
    (hs : Usable s) (hother : Usable other) :
    ∃ r, intersectSets fuel mergeSet s other = .ok r ∧
      Intersects mergeSet.constraints s other r := by
  induction fuel generalizing mergeSet s other with
  | zero =>
    obtain rfl : s = [] := eq_nil_of_length_eq_zero (by omega)
    obtain rfl : other = [] := eq_nil_of_length_eq_zero (by omega)
    exact ⟨_, rfl, [], by simp, merges_nil, fun row => by simp [AllAdmit, AdmitsBut]⟩
  | succ fuel ih =>
    have hturn := takeTurn_spec hs.sorted hother.sorted hs.small hother.small
    unfold intersectSets
    generalize takeTurn s other = turn at hturn ⊢
    cases hturn with
    | done hnil hnil' =>
      subst hnil hnil'
      exact ⟨_, rfl, [], by simp, merges_nil, fun row => by simp [AllAdmit, AdmitsBut]⟩
    | @one c s' other' hfrom hafter hafter' =>
      -- a constraint of one side only is kept
      obtain ⟨hlen, hs', hother', hwf, hmem, hsub, hrows⟩ :
          s.length + other.length = s'.length + other'.length + 1 ∧ Usable s' ∧ Usable other' ∧
          c.WellFormed ∧ (c ∈ s ∨ c ∈ other) ∧ (∀ d, d ∈ s' ∨ d ∈ other' → d ∈ s ∨ d ∈ other) ∧
          ∀ row, AllAdmit s row ∧ AdmitsBut s other row ↔
            c.AdmitsRow row ∧ AllAdmit s' row ∧ AdmitsBut s' other' row := by
        rcases hfrom with ⟨rfl, rfl⟩ | ⟨rfl, rfl⟩
        · refine ⟨Nat.succ_add _ _, hs.tail, hother, hs.wellFormed c mem_cons_self,
            .inl mem_cons_self, fun d => Or.imp_left (mem_cons_of_mem _), fun row => ?_⟩
          rw [allAdmit_cons, admitsBut_cons_left hafter', and_assoc]
        · refine ⟨rfl, hs, hother.tail, hother.wellFormed c mem_cons_self,
            .inr mem_cons_self, fun d => Or.imp_right (mem_cons_of_mem _), fun row => ?_⟩
          rw [admitsBut_cons, or_iff_right (not_ignored hafter), and_left_comm]
      obtain ⟨slot, halloc, hslot, hroom', -⟩ := hroom.alloc (c := c) (by omega)
      obtain ⟨r, hr, hresult⟩ := ih (by omega) (hroom'.mono (by omega)) hs' hother'
      rw [hslot] at hresult
      refine ⟨r, ?_, hresult.cons hs.small hother.small hsub hwf hmem rfl hafter hafter' hrows⟩
      simp only [halloc]
      exact hr
    | @both c o s' other' heq heq' hcols hafter hafter' =>
      -- constraints over the same columns are intersected
      subst heq heq'
      rw [length_cons, length_cons] at hfuel
      obtain ⟨slot, halloc, hslot, hroom', -⟩ := hroom.alloc (c := c) (by simp)
      obtain ⟨u, hu, hucols, huwf, hurows⟩ := Constraint.intersectWith_spec
        (hs.wellFormed c mem_cons_self) (hother.wellFormed o mem_cons_self) hcols
      have hignored : Ignored (c :: s') o ↔ o.OnlyNull :=
        and_iff_left ⟨c, mem_cons_self, hcols⟩
      have hrows : ∀ row, AllAdmit (c :: s') row ∧ AdmitsBut (c :: s') (o :: other') row ↔
          u.AdmitsRow row ∧ AllAdmit s' row ∧ AdmitsBut s' other' row := by
        intro row
        rw [allAdmit_cons, admitsBut_cons, admitsBut_cons_left hafter', hignored,
          @admitsRow_iff _ _ _ _ _ row (fun p q => p ∧ (o.OnlyNull ∨ q)) hurows hucols hcols,
          and_and_and_comm]
      by_cases hempty : u.isContradiction = true
      · refine ⟨.contradiction, ?_, fun row h => ?_⟩
        · simp only [halloc]
          show (do let merge ← c.intersectWith o; _) = _
          rw [hu]
          exact if_pos hempty
        · have hnil : u.spans = [] := by simpa [Constraint.isContradiction] using hempty
          have hu := ((hrows row).mp h).1
          rw [Constraint.AdmitsRow, Constraint.Admits, hnil] at hu
          exact spansAdmit_nil hu
      · have hset : (slot.setLast u).constraints = mergeSet.constraints ++ [u] := by
          simp [ConstraintSet.setLast, hslot]
        obtain ⟨r, hr, hresult⟩ := @ih s' other' (slot.setLast u) (by omega)
          ((hroom'.setLast (by simp [hslot])).mono (by simp)) hs.tail hother.tail
        rw [hset] at hresult
        refine ⟨r, ?_, hresult.cons hs.small hother.small ?_ huwf (.inl mem_cons_self)
          hucols hafter hafter' hrows⟩
        · simp only [halloc]
          show (do let merge ← c.intersectWith o; _) = _
          rw [hu]
          exact (if_neg hempty).trans hr
        · exact fun d hd => hd.imp (mem_cons_of_mem _) (mem_cons_of_mem _)

theorem unionSets_spec (fuel : Nat)
    (hroom : mergeSet.Room (s.length + other.length)) (hs : Usable s) (hother : Usable other) :
    ∃ set, unionSets fuel mergeSet s other = .ok (.fresh set) ∧
      Unites mergeSet.constraints s other set := by
  induction fuel generalizing mergeSet s other with
  | zero => exact ⟨_, rfl, unites_done⟩
  | succ fuel ih =>
    cases s with
    | nil => exact ⟨_, rfl, unites_done⟩
    | cons c s =>
    cases other with
    | nil => exact ⟨_, rfl, unites_done⟩
    | cons o other =>
      rw [unionSets]
      split
      · -- no constraint over these columns on the other side
        obtain ⟨set, hset, hunites⟩ := ih (hroom.mono (by simp)) hs.tail hother
        exact ⟨set, hset, hunites.mono (fun _ => mem_cons_of_mem _) fun _ => id⟩
      rename_i hge
      split
      · obtain ⟨set, hset, hunites⟩ := ih (hroom.mono (by simp)) hs hother.tail
        exact ⟨set, hset, hunites.mono (fun _ => id) fun _ => mem_cons_of_mem _⟩
      · -- constraints over the same columns are united
        rename_i hle
        have hcols : c.columns = o.columns :=
          (compareConstraintsByCols_eq (hs.small c mem_cons_self)
            (hother.small o mem_cons_self)).mp (by omega)
        have hafter := ((sortedByCols_cons hs.small).mp hs.sorted).1
        have hafter' : ColsAfter c other := by
          rw [ColsAfter, hcols]
          exact ((sortedByCols_cons hother.small).mp hother.sorted).1
        obtain ⟨slot, halloc, hslot, hroom', hundo⟩ := hroom.alloc (c := c) (by simp)
        obtain ⟨u, hu, hucols, huwf, hunull, hurows⟩ := Constraint.unionWith_spec
          (hs.wellFormed c mem_cons_self) (hother.wellFormed o mem_cons_self) hcols
        simp only [halloc, hu]
        show ∃ set, unionSets fuel (if u.isUnconstrained = true then slot.undoAllocConstraint
          else slot.setLast u) s other = _ ∧ _
        split
        · have heq : slot.undoAllocConstraint.constraints = mergeSet.constraints := by
            simp [ConstraintSet.undoAllocConstraint, hslot]
          obtain ⟨set, hset, hunites⟩ := @ih s other slot.undoAllocConstraint
            (hundo.mono (by simp)) hs.tail hother.tail
          rw [heq] at hunites
          exact ⟨set, hset, hunites.mono (fun _ => mem_cons_of_mem _) fun _ => mem_cons_of_mem _⟩
        · rename_i hproper
          -- a union that is mistaken for unconstrained has been left out
          have hnull : ¬ c.OnlyNull := fun h => hproper (hunull h ▸ h.isUnconstrained)
          have heq : (slot.setLast u).constraints = mergeSet.constraints ++ [u] := by
            simp [ConstraintSet.setLast, hslot]
          obtain ⟨set, hset, rest, hrest, hmerges, hrows⟩ := @ih s other (slot.setLast u)
            ((hroom'.setLast (by simp [hslot])).mono (by simp)) hs.tail hother.tail
          refine ⟨set, hset, u :: rest, by rw [hrest, heq, append_assoc]; rfl,
            hmerges.cons hs.small hother.small ?_ huwf (.inl mem_cons_self) hucols hafter
              hafter', fun row hrow => allAdmit_cons.mpr ⟨?_, hrows row ?_⟩⟩
          · exact fun d hd => hd.imp (mem_cons_of_mem _) (mem_cons_of_mem _)
          · rw [@admitsRow_iff _ _ _ _ _ row (fun p q => p ∨ ¬ c.OnlyNull ∧ q) hurows hucols hcols]
            exact hrow.imp (fun h => (allAdmit_cons.mp h).1)
              fun h => ⟨hnull, (allAdmit_cons.mp h).1⟩
          · exact hrow.imp (fun h => (allAdmit_cons.mp h).2) fun h => (allAdmit_cons.mp h).2

end Loops

/-! ## Whole sets -/

namespace SetRef

variable [LinearOrder D]

/-- The rows of a set. -/
def Admits (s : SetRef D) (row : ColumnID → D) : Prop :=
  s ≠ .contradiction ∧ AllAdmit s.constraints row

/-- The constraints are in order, over different columns, and sorted by columns. -/
structure Valid (s : SetRef D) : Prop where
  wellFormed : ∀ c ∈ s.constraints, c.WellFormed
  sorted : SortedByCols s.constraints

variable {s other : SetRef D}

omit [LinearOrder D] in
theorem constraints_eq_nil (h : s.isUnconstrained = true) : s.constraints = [] := by
  cases s with
  | unconstrained | contradiction => rfl
  | fresh set => simpa [isUnconstrained, constraints] using h

theorem admits_of_isUnconstrained (h : s.isUnconstrained = true) (row : ColumnID → D) :
    s.Admits row := by
  refine ⟨fun hc => ?_, ?_⟩
  · rw [hc] at h
    cases h
  · rw [constraints_eq_nil h]
    exact nofun

variable [OrderBot D]

/-- `Intersect` admits what both sets admit, but for the constraints that are ignored. -/
theorem intersect_spec (hs : Usable s.constraints) (hother : Usable other.constraints) :
    ∃ r, s.intersect other = .ok r ∧ r.Valid ∧
      ∀ row, r.Admits row ↔ s.Admits row ∧ other ≠ .contradiction ∧
        AdmitsBut s.constraints other.constraints row := by
  have hvalid : s.Valid := ⟨hs.wellFormed, hs.sorted⟩
  have hvalid' : other.Valid := ⟨hother.wellFormed, hother.sorted⟩
  unfold intersect
  split
  · rename_i hcontra
    refine ⟨.contradiction, rfl, ⟨nofun, .nil⟩, fun row => ⟨fun h => absurd rfl h.1, fun h => ?_⟩⟩
    exact hcontra.elim (fun heq => absurd heq h.1.1) fun heq => absurd heq h.2.1
  rename_i hcontra
  rw [not_or] at hcontra
  split
  · rename_i hfree
    have hall : ∀ row, AdmitsBut s.constraints other.constraints row ↔
        AllAdmit other.constraints row := by
      intro row
      refine forall₂_congr fun o _ => or_iff_right ?_
      rw [constraints_eq_nil hfree]
      exact not_ignored nofun
    exact ⟨other, rfl, hvalid', fun row =>
      ⟨fun h => ⟨admits_of_isUnconstrained hfree row, h.1, (hall row).mpr h.2⟩,
        fun h => ⟨h.2.1, (hall row).mp h.2.2⟩⟩⟩
  split
  · rename_i hfree
    have hall : ∀ row, AdmitsBut s.constraints other.constraints row := by
      rw [constraints_eq_nil hfree]
      exact fun row => nofun
    exact ⟨s, rfl, hvalid, fun row => ⟨fun h => ⟨h, hcontra.2, hall row⟩, And.left⟩⟩
  obtain ⟨r, hr, hresult⟩ := intersectSets_spec le_rfl ConstraintSet.room_empty hs hother
  refine ⟨r, hr, ?_⟩
  cases r with
  | unconstrained => exact absurd hresult id
  | contradiction =>
    refine ⟨⟨nofun, .nil⟩, fun row => ⟨fun h => absurd rfl h.1, fun h => ?_⟩⟩
    exact absurd ⟨h.1.2, h.2.2⟩ (hresult row)
  | fresh set =>
    obtain ⟨rest, heq, hmerges, hrows⟩ := hresult
    have heq : (SetRef.fresh set).constraints = rest := heq
    refine ⟨⟨heq ▸ hmerges.wellFormed, heq ▸ hmerges.sorted⟩, fun row => ?_⟩
    have hrow := hrows row
    rw [← heq] at hrow
    exact ⟨fun h => ⟨⟨hcontra.1, (hrow.mp h.2).1⟩, ⟨hcontra.2, (hrow.mp h.2).2⟩⟩,
      fun h => ⟨nofun, hrow.mpr ⟨h.1.2, h.2.2⟩⟩⟩

/-- `Union` admits what one of the sets admits. -/
theorem union_spec (hs : Usable s.constraints) (hother : Usable other.constraints) :
    ∃ r, s.union other = .ok r ∧ r.Valid ∧
      ∀ row, s.Admits row ∨ other.Admits row → r.Admits row := by
  unfold union
  split
  · rename_i hcontra
    refine ⟨other, rfl, ⟨hother.wellFormed, hother.sorted⟩, fun row h => ?_⟩
    exact h.resolve_left fun h => h.1 hcontra
  split
  · rename_i hcontra
    refine ⟨s, rfl, ⟨hs.wellFormed, hs.sorted⟩, fun row h => ?_⟩
    exact h.resolve_right fun h => h.1 hcontra
  split
  · exact ⟨.unconstrained, rfl, ⟨nofun, .nil⟩, fun row _ => ⟨nofun, nofun⟩⟩
  obtain ⟨set, hset, rest, heq, hmerges, hrows⟩ := unionSets_spec
    (s.constraints.length + other.constraints.length) ConstraintSet.room_empty hs hother
  have heq : (SetRef.fresh set).constraints = rest := heq
  refine ⟨.fresh set, hset, ⟨heq ▸ hmerges.wellFormed, heq ▸ hmerges.sorted⟩,
    fun row h => ⟨nofun, ?_⟩⟩
  have hrow := hrows row (h.imp And.right And.right)
  rw [← heq] at hrow
  exact hrow

end SetRef

/-! ## The algebra -/

section

variable [LinearOrder D] [OrderBot D]

/-- Every row has NULL in the first column. -/
def Constraint.NullFirst (c : Constraint D) : Prop :=
  ∀ row : List D, row.length = c.columns.count → c.Admits row → row.head? = some ⊥

/-- The common rows that `Intersect` is left with have NULL in the first column of every
constraint that it ignores. -/
def SetRef.IgnoresNull (s other : SetRef D) : Prop :=
  ∀ row, s.Admits row → other ≠ .contradiction →
    AdmitsBut s.constraints other.constraints row →
    ∀ o ∈ other.constraints, Ignored s.constraints o →
      row (OrderingColumn.id o.columns.firstCol) = ⊥

theorem Constraint.OnlyNull.admitsRow_iff {o : Constraint D} (h : o.OnlyNull)
    (row : ColumnID → D) :
    o.AdmitsRow row ↔ row (OrderingColumn.id o.columns.firstCol) = ⊥ := by
  unfold AdmitsRow
  rw [h.admits_iff (by rw [length_map, Columns.length_toList])]
  exact Option.some_inj

/-- The constraint algebra. Constraints over one column list are united and intersected row for
row iff the one that is mistaken for unconstrained, if it is `[/NULL - ]` over a descending first
column, has all rows of the other one; `SortAndMerge` keeps the rows of every span list; the spans
of the results are in order. `Intersect` of two sets admits the common rows iff those of its result
have NULL in the first column of every such constraint that it ignores, and `Union` all rows of
both; both keep the constraints sorted and return. -/
theorem constraint_algebra :
    (∀ c other : Constraint D, c.columns = other.columns → c.WellFormed → other.WellFormed →
      (∃ u, c.unionWith other = .ok u ∧ u.columns = c.columns ∧ u.WellFormed ∧
        ((∀ row : List D, row.length = c.columns.count →
          (u.Admits row ↔ c.Admits row ∨ other.Admits row)) ↔
            (c.OnlyNull → other.NullFirst))) ∧
      (∃ i, c.intersectWith other = .ok i ∧ i.columns = c.columns ∧ i.WellFormed ∧
        ((∀ row : List D, row.length = c.columns.count →
          (i.Admits row ↔ c.Admits row ∧ other.Admits row)) ↔
            (other.OnlyNull → c.NullFirst)))) ∧
    (∀ (cols : Columns) (spans : List (Span D)), (∀ sp ∈ spans, sp.Fits cols.toList) →
      InOrder cols.toList (sortAndMerge cols.toList spans) ∧
      ∀ row : List D, row.length = cols.count →
        (SpansAdmit cols.toList (sortAndMerge cols.toList spans) row ↔
          SpansAdmit cols.toList spans row)) ∧
    ∀ s other : SetRef D, Usable s.constraints → Usable other.constraints →
      (∃ i, s.intersect other = .ok i ∧ i.Valid ∧
        ((∀ row, i.Admits row ↔ s.Admits row ∧ other.Admits row) ↔ s.IgnoresNull other)) ∧
      (∃ u, s.union other = .ok u ∧ u.Valid ∧
        ∀ row, s.Admits row ∨ other.Admits row → u.Admits row) := by
  refine ⟨fun c other hcols hc hother => ⟨?_, ?_⟩, ?_, fun s other hs hother => ⟨?_, ?_⟩⟩
  · obtain ⟨u, hu, hucols, huwf, -, hrows⟩ := Constraint.unionWith_spec hc hother hcols
    refine ⟨u, hu, hucols, huwf, fun hexact hnull row hrow hadm => ?_, fun hnull row hrow => ?_⟩
    · rw [← hcols] at hrow
      rw [← hnull.admits_iff hrow]
      exact ((hrows row hrow).mp ((hexact row hrow).mpr (.inr hadm))).resolve_right
        fun h => h.1 hnull
    · rw [hrows row hrow]
      refine ⟨Or.imp_right And.right, fun h => or_iff_not_imp_left.mpr fun hno => ?_⟩
      have hadm := h.resolve_left hno
      refine ⟨fun honly => hno ((honly.admits_iff hrow).mpr ?_), hadm⟩
      exact hnull honly row (hcols ▸ hrow) hadm
  · obtain ⟨i, hi, hicols, hiwf, hrows⟩ := Constraint.intersectWith_spec hc hother hcols
    refine ⟨i, hi, hicols, hiwf, fun hexact hnull row hrow hadm => ?_, fun hnull row hrow => ?_⟩
    · rw [← hnull.admits_iff (hcols ▸ hrow)]
      exact ((hexact row hrow).mp ((hrows row hrow).mpr ⟨hadm, .inl hnull⟩)).2
    · rw [hrows row hrow]
      refine ⟨fun ⟨hadm, h⟩ => ⟨hadm, h.elim (fun honly => ?_) id⟩, fun h => ⟨h.1, .inr h.2⟩⟩
      exact (honly.admits_iff (hcols ▸ hrow)).mpr (hnull honly row hrow hadm)
  · intro cols spans hfits
    obtain ⟨hinOrder, -, hrows⟩ := sortAndMerge_spec hfits
    exact ⟨hinOrder, fun row hrow => hrows row (hrow.trans cols.length_toList.symm)⟩
  · obtain ⟨i, hi, hvalid, hrows⟩ := SetRef.intersect_spec hs hother
    refine ⟨i, hi, hvalid, fun hexact row hadm hne hbut o ho hig => ?_, fun hnull row => ?_⟩
    · rw [← hig.1.admitsRow_iff]
      exact ((hexact row).mp ((hrows row).mpr ⟨hadm, hne, hbut⟩)).2.2 o ho
    · rw [hrows row]
      refine ⟨fun ⟨hadm, hne, hbut⟩ => ⟨hadm, hne, fun o ho => ?_⟩,
        fun h => ⟨h.1, h.2.1, fun o ho => .inr (h.2.2 o ho)⟩⟩
      refine (hbut o ho).elim (fun hig => ?_) id
      exact (hig.1.admitsRow_iff row).mpr (hnull row hadm hne hbut o ho hig)
  · exact SetRef.union_spec hs hother

end

/-- A datum other than NULL. -/
def datum (n : ℕ) : WithBot ℕ := n

/-- `[/1/5 - /3)`, the second column descending. -/
def upToThree : Constraint (WithBot ℕ) where
  columns := { firstCol := 1, otherCols := [-2] }
  spans :=
    [{ startKey := [datum 1, datum 5], endKey := [datum 3], endBoundary := .excludeBoundary }]

/-- `[/2 - /2/1] (/4 - ]`, the second column descending. -/
def aroundThree : Constraint (WithBot ℕ) where
  columns := { firstCol := 1, otherCols := [-2] }
  spans := [{ startKey := [datum 2], endKey := [datum 2, datum 1] },
    { startKey := [datum 4], startBoundary := .excludeBoundary }]

theorem constraint_algebra_aroundThree :
    (∃ u, upToThree.unionWith aroundThree = .ok u ∧ u.Admits [datum 2, datum 0] ∧
      ¬ u.Admits [datum 1, datum 7]) ∧
    (∃ i, upToThree.intersectWith aroundThree = .ok i ∧ i.Admits [datum 2, datum 7] ∧
      ¬ i.Admits [datum 2, datum 0]) ∧
    InOrder [1, -2] (sortAndMerge [1, -2] (aroundThree.spans ++ upToThree.spans)) ∧
    (∃ i, (SetRef.fresh { constraints := [upToThree] }).intersect
      (.fresh { constraints := [aroundThree] }) = .ok i ∧ i.Valid ∧
        ∀ row, i.Admits row ↔ (SetRef.fresh { constraints := [upToThree] }).Admits row ∧
          (SetRef.fresh { constraints := [aroundThree] }).Admits row) := by
  obtain ⟨hconstraints, hspans, hsets⟩ := constraint_algebra (D := WithBot ℕ)
  obtain ⟨⟨u, hu, -, -, hunion⟩, i, hi, -, -, hmeet⟩ := hconstraints upToThree aroundThree
    (by decide) (by decide) (by decide)
  have hurows := hunion.mpr fun h => absurd h (by decide)
  have hirows := hmeet.mpr fun h => absurd h (by decide)
  refine ⟨⟨u, hu, ?_, ?_⟩, ⟨i, hi, ?_, ?_⟩, ?_, ?_⟩
  · exact (hurows [datum 2, datum 0] rfl).mpr (by decide)
  · exact fun h => absurd ((hurows [datum 1, datum 7] rfl).mp h) (by decide)
  · exact (hirows [datum 2, datum 7] rfl).mpr (by decide)
  · exact fun h => absurd ((hirows [datum 2, datum 0] rfl).mp h) (by decide)
  · exact (hspans { firstCol := 1, otherCols := [-2] } _ (by decide)).1
  · obtain ⟨⟨i, hi, hvalid, hmeet⟩, -⟩ := hsets (.fresh { constraints := [upToThree] })
      (.fresh { constraints := [aroundThree] }) (by decide) (by decide)
    refine ⟨i, hi, hvalid, hmeet.mpr fun row _ _ _ o ho hig => ?_⟩
    rw [mem_singleton.mp ho] at hig
    exact absurd hig.1 (by decide)

/-- Over a descending column `[/NULL - ]` has only NULL, yet it counts as unconstrained: a union
with it forgets the rows of the other constraint, and an intersection keeps them. -/
theorem unionWith_loses_rows :
    ∃ c other : Constraint (WithBot ℕ), c.columns = other.columns ∧ c.WellFormed ∧
      other.WellFormed ∧ ¬ c.Admits [datum 1] ∧ other.Admits [datum 1] ∧
      c.unionWith other = .ok c ∧ other.intersectWith c = .ok other := by
  refine ⟨{ columns := { firstCol := -1 }, spans := [{ startKey := [⊥] }] },
    { columns := { firstCol := -1 },
      spans := [{ startKey := [datum 1], endKey := [datum 1] }] }, ?_⟩
  decide

end Cockroach.Opt
