import Mathlib

/-!
# Binary search for the first index that passes (`sort.Search`)

`search n f` halves an interval `[i, j)` as long as it is not empty. Whatever the
predicate, the index before the result fails and the result passes; when the predicate
does not go back from true to false, the result is the first index that passes. Over a
list (`searchList`) it is then where `List.find?` stops.
-/

namespace Cockroach.Lib

open List Option

/-- The loop of `sort.Search`, for at most `fuel` rounds. -/
def searchFrom (f : Nat → Bool) : Nat → Nat → Nat → Nat
  | 0, i, _ => i
  | fuel + 1, i, j =>
    if i < j then
      if f ((i + j) / 2) then searchFrom f fuel i ((i + j) / 2)
      else searchFrom f fuel ((i + j) / 2 + 1) j
    else i

/-- `sort.Search`. -/
def search (n : Nat) (f : Nat → Bool) : Nat := searchFrom f n 0 n

variable {f : Nat → Bool} {n : Nat}

/-- The interval shrinks around the result. -/
theorem searchFrom_spec {fuel i j : Nat} (hfuel : j ≤ i + fuel) (hij : i ≤ j) :
    i ≤ searchFrom f fuel i j ∧ searchFrom f fuel i j ≤ j ∧
      (searchFrom f fuel i j < j → f (searchFrom f fuel i j) = true) ∧
      (i < searchFrom f fuel i j → f (searchFrom f fuel i j - 1) = false) := by
  induction fuel generalizing i j with
  | zero =>
    show i ≤ i ∧ i ≤ j ∧ (i < j → f i = true) ∧ (i < i → f (i - 1) = false)
    exact ⟨le_rfl, hij, fun h => by omega, fun h => by omega⟩
  | succ fuel ih =>
    unfold searchFrom
    by_cases hlt : i < j
    · rw [if_pos hlt]
      by_cases hf : f ((i + j) / 2) = true
      · rw [if_pos hf]
        obtain ⟨h₁, h₂, h₃, h₄⟩ := ih (i := i) (j := (i + j) / 2) (by omega) (by omega)
        refine ⟨h₁, by omega, fun _ => ?_, h₄⟩
        rcases h₂.lt_or_eq with h | h
        · exact h₃ h
        · rw [h]
          exact hf
      · rw [if_neg hf]
        obtain ⟨h₁, h₂, h₃, h₄⟩ := ih (i := (i + j) / 2 + 1) (j := j) (by omega) (by omega)
        refine ⟨by omega, h₂, h₃, fun _ => ?_⟩
        rcases h₁.lt_or_eq with h | h
        · exact h₄ h
        · rw [← h]
          exact Bool.not_eq_true _ ▸ hf
    · rw [if_neg hlt]
      exact ⟨le_rfl, hij, fun h => by omega, fun h => by omega⟩

theorem search_le : search n f ≤ n :=
  (searchFrom_spec (by omega) (Nat.zero_le n)).2.1

theorem search_true (h : search n f < n) : f (search n f) = true :=
  (searchFrom_spec (by omega) (Nat.zero_le n)).2.2.1 h

theorem search_pred (h : 0 < search n f) : f (search n f - 1) = false :=
  (searchFrom_spec (by omega) (Nat.zero_le n)).2.2.2 h

/-- A predicate that does not go back to false fails below the result. -/
theorem search_false (hf : ∀ i j, i ≤ j → j < n → f i = true → f j = true) {i : Nat}
    (h : i < search n f) : f i = false := by
  have hpred : f (search n f - 1) = false := search_pred (by omega)
  have hle := search_le (f := f) (n := n)
  cases hi : f i with
  | false => rfl
  | true =>
    rw [hf i (search n f - 1) (by omega) (by omega) hi] at hpred
    cases hpred

/-- The search over the elements of a list. -/
def searchList {α : Type*} (l : List α) (p : α → Bool) : Nat :=
  search l.length fun i => l[i]?.any p

section List

variable {α : Type*} {l : List α} {p : α → Bool}

theorem searchList_le : searchList l p ≤ l.length := search_le

variable (hp : l.Pairwise fun a b => p a = true → p b = true)
include hp

theorem any_getElem?_mono {i j : Nat}
    (hij : i ≤ j) (hj : j < l.length) (h : l[i]?.any p = true) : l[j]?.any p = true := by
  rw [getElem?_eq_getElem (by omega), any_some] at h
  rw [getElem?_eq_getElem hj, any_some]
  rcases hij.lt_or_eq with hlt | rfl
  · exact pairwise_iff_getElem.mp hp i j (by omega) hj hlt h
  · exact h

/-- The search stops at the first element that passes. -/
theorem getElem?_searchList : l[searchList l p]? = l.find? p := by
  have hfail : ∀ i < searchList l p, l[i]?.any p = false := fun i hi =>
    search_false (fun i j hij hj h => any_getElem?_mono hp hij hj h) hi
  rcases (searchList_le (l := l) (p := p)).lt_or_eq with hlt | heq
  · have htrue := search_true hlt
    rw [show search l.length _ = searchList l p from rfl] at htrue
    rw [getElem?_eq_getElem hlt, any_some] at htrue
    rw [getElem?_eq_getElem hlt, eq_comm, find?_eq_some_iff_getElem]
    refine ⟨htrue, searchList l p, hlt, rfl, fun j hj => ?_⟩
    have := hfail j hj
    rw [getElem?_eq_getElem (by omega), any_some] at this
    rw [this]
    rfl
  · rw [heq, getElem?_eq_none le_rfl, eq_comm, find?_eq_none]
    intro a ha
    obtain ⟨i, hi, rfl⟩ := mem_iff_getElem.mp ha
    have := hfail i (by omega)
    rw [getElem?_eq_getElem hi, any_some] at this
    rw [this]
    exact Bool.false_ne_true

end List

end Cockroach.Lib
