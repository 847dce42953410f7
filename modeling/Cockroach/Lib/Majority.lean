import Mathlib

/-!
# Majorities of finite sets

A majority of `c` is a set that contains more than half of `c`. Majorities of
one set meet, and so do majorities of two sets that differ in at most one
element (`majority_inter`). The order statistic behind commit indexes is here
too: the `n - (n/2 + 1)`-th smallest of `n` values is the largest value that a
majority reaches (`le_getElem_iff_countP`).
-/

namespace Cockroach.Lib

open List Finset

variable {α : Type*} [DecidableEq α]

/-- `s` contains more than half of `c`. -/
def IsMajority (c s : Finset α) : Prop := c.card / 2 + 1 ≤ (c ∩ s).card

theorem two_mul_card_union (c d : Finset α) :
    2 * (c ∪ d).card = c.card + d.card + (symmDiff c d).card := by
  have hsym : (symmDiff c d).card = (c \ d).card + (d \ c).card :=
    card_union_of_disjoint disjoint_sdiff_sdiff
  have hc : (c \ d).card + (c ∩ d).card = c.card := card_sdiff_add_card_inter c d
  have hd : (d \ c).card + (d ∩ c).card = d.card := card_sdiff_add_card_inter d c
  have hu : (c ∪ d).card + (c ∩ d).card = c.card + d.card := card_union_add_card_inter c d
  rw [inter_comm d c] at hd
  omega

/-- Majorities of two sets that differ in at most one element share a member. -/
theorem majority_inter {c d s t : Finset α} (hcd : (symmDiff c d).card ≤ 1)
    (hs : IsMajority c s) (ht : IsMajority d t) : ((c ∩ s) ∩ (d ∩ t)).Nonempty := by
  by_contra hempty
  rw [not_nonempty_iff_eq_empty, ← disjoint_iff_inter_eq_empty] at hempty
  have hle : ((c ∩ s) ∪ (d ∩ t)).card ≤ (c ∪ d).card :=
    card_le_card (union_subset_union inter_subset_left inter_subset_left)
  rw [card_union_of_disjoint hempty] at hle
  have hu := two_mul_card_union c d
  unfold IsMajority at hs ht
  omega

/-- Majorities of one set share a member. -/
theorem majority_inter_self {c s t : Finset α} (hs : IsMajority c s) (ht : IsMajority c t) :
    ∃ a ∈ c, a ∈ s ∧ a ∈ t := by
  obtain ⟨a, ha⟩ := majority_inter (by simp) hs ht
  simp only [mem_inter] at ha
  exact ⟨a, ha.1.1, ha.1.2, ha.2.2⟩

/-! ## Order statistics -/

/-- In an ascending list, the entry at `i` is at least `k` iff at least
`length - i` entries are. -/
theorem le_getElem_iff_countP {l : List Nat} (hl : l.Pairwise (· ≤ ·)) {i : Nat}
    (hi : i < l.length) (k : Nat) :
    k ≤ l[i] ↔ l.length - i ≤ l.countP (k ≤ ·) := by
  induction l generalizing i with
  | nil => simp at hi
  | cons a l ih =>
    obtain ⟨ha, hl'⟩ := pairwise_cons.mp hl
    have hcount : l.countP (k ≤ ·) ≤ l.length := countP_le_length
    cases i with
    | zero =>
      by_cases hk : k ≤ a
      · -- then every later entry reaches `k` as well
        have hall : l.countP (k ≤ ·) = l.length :=
          countP_eq_length.mpr fun b hb => by simpa using hk.trans (ha b hb)
        simp [hk, hall]
      · simp only [getElem_cons_zero, hk, length_cons, countP_cons, decide_false, false_iff]
        simp only [Bool.false_eq_true, if_false]
        omega
    | succ i =>
      simp only [length_cons, Nat.add_lt_add_iff_right] at hi
      rw [getElem_cons_succ, ih hl' hi, countP_cons, length_cons]
      by_cases hk : k ≤ a
      · have hall : l.countP (k ≤ ·) = l.length :=
          countP_eq_length.mpr fun b hb => by simpa using hk.trans (ha b hb)
        simp only [hall, hk, decide_true, if_true]
        omega
      · simp only [hk, decide_false, Bool.false_eq_true, if_false]
        omega

end Cockroach.Lib
