import Mathlib

/-!
# Ascending enumeration of a finite set

`ascending s` lists a finite set of a linear order in increasing order. It is
`Finset.sort` computed by insertion sort, so that it also evaluates inside the
kernel.
-/

namespace Cockroach.Lib

variable {α : Type*} [LinearOrder α]

/-- The elements of `s`, smallest first. -/
def ascending (s : Finset α) : List α :=
  Quot.liftOn s.val (List.insertionSort (· ≤ ·)) fun l l' h =>
    List.Perm.eq_of_pairwise' (List.pairwise_insertionSort (· ≤ ·) l)
      (List.pairwise_insertionSort (· ≤ ·) l')
      ((List.perm_insertionSort _ l).trans (h.trans (List.perm_insertionSort _ l').symm))

theorem ascending_perm (s : Finset α) : (ascending s : Multiset α) = s.val := by
  obtain ⟨m, hm⟩ := s
  induction m using Quot.ind with
  | mk l => exact Multiset.coe_eq_coe.mpr (List.perm_insertionSort _ l)

@[simp] theorem mem_ascending {s : Finset α} {a : α} : a ∈ ascending s ↔ a ∈ s := by
  rw [← Multiset.mem_coe, ascending_perm, Finset.mem_val]

theorem nodup_ascending (s : Finset α) : (ascending s).Nodup := by
  rw [← Multiset.coe_nodup, ascending_perm]
  exact s.nodup

@[simp] theorem length_ascending (s : Finset α) : (ascending s).length = s.card := by
  rw [← Multiset.coe_card, ascending_perm, Finset.card_val]

@[simp] theorem toFinset_ascending (s : Finset α) : (ascending s).toFinset = s := by
  ext a
  simp

end Cockroach.Lib
