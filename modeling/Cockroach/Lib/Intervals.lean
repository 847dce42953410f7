import Mathlib

/-!
# Intervals of a linear order

Open intervals that are compared by their bounds. Points of interest are never bounds
themselves, so two intervals that touch make one (`contains_extend`). A list of intervals
in order, none touching the next, is `Ordered`; adjacent intervals are enough to check
(`ordered_of_isChain`).
-/

namespace Cockroach.Lib

open List

variable {P : Type*} [LinearOrder P]

structure OpenInterval (P : Type*) where
  lo : P
  hi : P

namespace OpenInterval

def Contains (i : OpenInterval P) (p : P) : Prop := i.lo < p ∧ p < i.hi

def Proper (i : OpenInterval P) : Prop := i.lo < i.hi

/-- There is a gap after `i` and before `j`. -/
def Before (i j : OpenInterval P) : Prop := i.hi < j.lo

variable {i j k : OpenInterval P} {p : P}

/-- An interval that goes on where `j` starts is extended by `j`. -/
theorem contains_extend (hlo : i.lo ≤ j.lo) (htouch : j.lo ≤ i.hi ∨ i.lo = j.lo) (hp : p ≠ i.hi) :
    (OpenInterval.mk i.lo (max i.hi j.hi)).Contains p ↔ i.Contains p ∨ j.Contains p := by
  constructor
  · rintro ⟨hl, hh⟩
    rcases lt_or_gt_of_ne hp with hlt | hgt
    · exact .inl ⟨hl, hlt⟩
    · refine .inr ⟨?_, (lt_max_iff.mp hh).resolve_left hgt.not_gt⟩
      rcases htouch with htouch | heq
      · exact htouch.trans_lt hgt
      · rwa [← heq]
  · rintro (⟨hl, hh⟩ | ⟨hl, hh⟩)
    · exact ⟨hl, lt_max_of_lt_left hh⟩
    · exact ⟨hlo.trans_lt hl, lt_max_of_lt_right hh⟩

theorem contains_meet :
    (OpenInterval.mk (max i.lo j.lo) (min i.hi j.hi)).Contains p ↔ i.Contains p ∧ j.Contains p := by
  unfold Contains
  rw [max_lt_iff, lt_min_iff]
  tauto

theorem Before.trans (hij : i.Before j) (hj : j.Proper) (hjk : j.Before k) : i.Before k :=
  lt_trans (lt_trans hij hj) hjk

/-! ## Lists of intervals -/

/-- Proper intervals in order, with gaps between them. -/
structure Ordered (l : List (OpenInterval P)) : Prop where
  proper : ∀ i ∈ l, i.Proper
  before : l.Pairwise Before

theorem ordered_nil : Ordered ([] : List (OpenInterval P)) := ⟨nofun, .nil⟩

theorem ordered_cons {l : List (OpenInterval P)} :
    Ordered (i :: l) ↔ i.Proper ∧ (∀ j ∈ l, i.Before j) ∧ Ordered l := by
  constructor
  · rintro ⟨hproper, hbefore⟩
    obtain ⟨hhead, htail⟩ := pairwise_cons.mp hbefore
    exact ⟨hproper i mem_cons_self, hhead, fun j hj => hproper j (mem_cons_of_mem _ hj), htail⟩
  · rintro ⟨hi, hhead, hproper, hbefore⟩
    refine ⟨fun j hj => ?_, pairwise_cons.mpr ⟨hhead, hbefore⟩⟩
    rcases mem_cons.mp hj with rfl | hj
    · exact hi
    · exact hproper j hj

theorem Ordered.suffix {l l' : List (OpenInterval P)} (h : Ordered l) (hsuffix : l' <:+ l) :
    Ordered l' :=
  ⟨fun i hi => h.proper i (hsuffix.mem hi), h.before.sublist hsuffix.sublist⟩

/-- Gaps between adjacent intervals are gaps between all of them. -/
theorem ordered_of_isChain {l : List (OpenInterval P)} (hproper : ∀ i ∈ l, i.Proper)
    (hchain : l.IsChain Before) : Ordered l := by
  induction l with
  | nil => exact ordered_nil
  | cons i l ih =>
    have hl : Ordered l :=
      ih (fun j hj => hproper j (mem_cons_of_mem _ hj)) hchain.of_cons
    refine ordered_cons.mpr ⟨hproper i mem_cons_self, fun j hj => ?_, hl⟩
    cases l with
    | nil => cases hj
    | cons k l =>
      have hik : i.Before k := (isChain_cons_cons.mp hchain).1
      obtain ⟨hk, hbefore, -⟩ := ordered_cons.mp hl
      rcases mem_cons.mp hj with rfl | hj
      · exact hik
      · exact hik.trans hk (hbefore j hj)

end OpenInterval

end Cockroach.Lib
