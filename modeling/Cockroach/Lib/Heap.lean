import Mathlib

/-!
# Binary heaps behind an interface

`up`, `down`, `fix`, `push` and `remove` work on any state through its length, its
order on positions and its swaps. A state is seen as a function from positions to
keys; `Gap` is a heap that may be out of order around one position. A swap moves the
gap up (`Gap.up`) or down (`Gap.down`), and a gap that is in order on both sides is
none (`Gap.ordered`).
-/

namespace Cockroach.Lib.Heap

open Function

/-! ## The order of a heap -/

section Order

variable {κ : Type} [LinearOrder κ] {f : Nat → κ} {n i j : Nat}

/-- No position is before its parent. -/
def Ordered (f : Nat → κ) (n : Nat) : Prop := ∀ k < n, 0 < k → f ((k - 1) / 2) ≤ f k

/-- The top is the least. -/
theorem Ordered.top_le (h : Ordered f n) : ∀ k < n, f 0 ≤ f k := by
  intro k
  induction k using Nat.strong_induction_on with
  | _ k ih =>
    intro hk
    rcases Nat.eq_zero_or_pos k with rfl | hpos
    · exact le_rfl
    · exact (ih ((k - 1) / 2) (by omega) (by omega)).trans (h k hk hpos)

theorem Ordered.mono (h : Ordered f n) {m : Nat} (hm : m ≤ n) : Ordered f m :=
  fun k hk => h k (by omega)

/-- Only the keys of the positions count. -/
theorem Ordered.congr {g : Nat → κ} (h : Ordered g n) (heq : ∀ k < n, f k = g k) : Ordered f n := by
  intro k hk hpos
  rw [heq k hk, heq _ (by omega)]
  exact h k hk hpos

/-- Order that may be broken around `i`, but not across it. -/
structure Gap (f : Nat → κ) (n i : Nat) : Prop where
  edges : ∀ k < n, 0 < k → k ≠ i → (k - 1) / 2 ≠ i → f ((k - 1) / 2) ≤ f k
  across : ∀ k < n, 0 < k → (k - 1) / 2 = i → 0 < i → f ((i - 1) / 2) ≤ f k

/-- The gap is in order with its parent. -/
def Above (f : Nat → κ) (i : Nat) : Prop := 0 < i → f ((i - 1) / 2) ≤ f i

/-- The gap is in order with its children. -/
def Below (f : Nat → κ) (n i : Nat) : Prop := ∀ k < n, 0 < k → (k - 1) / 2 = i → f i ≤ f k

theorem Gap.ordered (h : Gap f n i) (ha : Above f i) (hb : Below f n i) : Ordered f n := by
  intro k hk hpos
  by_cases hki : k = i
  · subst hki
    exact ha hpos
  by_cases hp : (k - 1) / 2 = i
  · rw [hp]
    exact hb k hk hpos hp
  · exact h.edges k hk hpos hki hp

/-- An ordered heap whose key at `i` has changed. -/
theorem Ordered.gap {g : Nat → κ} (h : Ordered g n) (hi : i < n)
    (heq : ∀ k < n, k ≠ i → f k = g k) : Gap f n i := by
  constructor
  · intro k hk hpos hki hp
    rw [heq k hk hki, heq _ (by omega) hp]
    exact h k hk hpos
  · intro k hk hpos hp hi0
    rw [heq k hk (by omega), heq _ (by omega) (by omega)]
    refine (h i hi hi0).trans ?_
    have := h k hk hpos
    rw [hp] at this
    exact this

/-- The gap is swapped with the lesser of its children. -/
theorem Gap.down (h : Gap f n i) (hj : j < n) (hpos : 0 < j) (hp : (j - 1) / 2 = i)
    (hmin : ∀ k < n, 0 < k → (k - 1) / 2 = i → f j ≤ f k) (hlt : f j < f i) :
    Gap (f ∘ Equiv.swap i j) n j ∧ Above (f ∘ Equiv.swap i j) j := by
  have hi : (f ∘ Equiv.swap i j) i = f j := by
    rw [comp_apply, Equiv.swap_apply_left]
  have hj' : (f ∘ Equiv.swap i j) j = f i := by
    rw [comp_apply, Equiv.swap_apply_right]
  have hother : ∀ k, k ≠ i → k ≠ j → (f ∘ Equiv.swap i j) k = f k := by
    intro k h1 h2
    rw [comp_apply, Equiv.swap_apply_of_ne_of_ne h1 h2]
  refine ⟨⟨fun k hk hk0 hkj hpk => ?_, fun k hk hk0 hpk _ => ?_⟩, fun _ => ?_⟩
  · by_cases hki : k = i
    · subst hki
      rw [hi, hother _ (by omega) (by omega)]
      exact h.across j hj hpos hp hk0
    · rw [hother k hki hkj]
      by_cases hpi : (k - 1) / 2 = i
      · rw [hpi, hi]
        exact hmin k hk hk0 hpi
      · rw [hother _ hpi hpk]
        exact h.edges k hk hk0 hki hpi
  · rw [hp, hi, hother k (by omega) (by omega), ← hpk]
    exact h.edges k hk hk0 (by omega) (by omega)
  · rw [hp, hi, hj']
    exact hlt.le

/-- The gap is swapped with its parent. -/
theorem Gap.up (h : Gap f n i) (hin : i < n) (hi0 : 0 < i) (hb : Below f n i)
    (hp : (i - 1) / 2 = j) (hlt : f i < f j) :
    Gap (f ∘ Equiv.swap j i) n j ∧ Below (f ∘ Equiv.swap j i) n j := by
  have hj : (f ∘ Equiv.swap j i) j = f i := by
    rw [comp_apply, Equiv.swap_apply_left]
  have hi : (f ∘ Equiv.swap j i) i = f j := by
    rw [comp_apply, Equiv.swap_apply_right]
  have hother : ∀ k, k ≠ j → k ≠ i → (f ∘ Equiv.swap j i) k = f k := by
    intro k h1 h2
    rw [comp_apply, Equiv.swap_apply_of_ne_of_ne h1 h2]
  -- The other child of the parent.
  have hsib : ∀ k < n, 0 < k → (k - 1) / 2 = j → k ≠ i → f j ≤ f k := by
    intro k hk hk0 hpk hki
    have := h.edges k hk hk0 hki (by omega)
    rw [hpk] at this
    exact this
  refine ⟨⟨fun k hk hk0 hkj hpk => ?_, fun k hk hk0 hpk hj0 => ?_⟩, fun k hk hk0 hpk => ?_⟩
  · rw [hother k hkj (by rintro rfl; exact hpk hp)]
    by_cases hpi : (k - 1) / 2 = i
    · rw [hpi, hi, ← hp]
      exact h.across k hk hk0 hpi hi0
    · rw [hother _ hpk hpi]
      exact h.edges k hk hk0 (by rintro rfl; exact hpk hp) hpi
  · rw [hother _ (by omega) (by omega)]
    have hle : f ((j - 1) / 2) ≤ f j := h.edges j (by omega) hj0 (by omega) (by omega)
    by_cases hki : k = i
    · subst hki
      rw [hi]
      exact hle
    · rw [hother k (by omega) hki]
      exact hle.trans (hsib k hk hk0 hpk hki)
  · rw [hj]
    by_cases hki : k = i
    · subst hki
      rw [hi]
      exact hlt.le
    · rw [hother k (by omega) hki]
      exact hlt.le.trans (hsib k hk hk0 hpk hki)

end Order

/-! ## The routines -/

/-- What the routines use of a state. -/
structure Interface (σ : Type) where
  len : σ → Nat
  less : σ → Nat → Nat → Bool
  swap : σ → Nat → Nat → σ

section Routines

variable {σ : Type} (I : Interface σ)

/-- The loop of `up` at position `j`; `fuel` is at least `j`. -/
def up : Nat → σ → Nat → σ
  | 0, s, _ => s
  | fuel + 1, s, j =>
    let i := (j - 1) / 2
    if i = j ∨ ¬ I.less s j i then s else up fuel (I.swap s i j) i

/-- The loop of `down` at position `i` of the first `n`; `fuel` is at least `n - i`.
Returns the position where it ends. -/
def down (n : Nat) : Nat → σ → Nat → σ × Nat
  | 0, s, i => (s, i)
  | fuel + 1, s, i =>
    let j1 := 2 * i + 1
    if n ≤ j1 then (s, i)
    else
      let j := if j1 + 1 < n ∧ I.less s (j1 + 1) j1 then j1 + 1 else j1
      if ¬ I.less s j i then (s, i) else down n fuel (I.swap s i j) j

/-- `down`, and `up` if that did not move anything. -/
def fixFirst (n : Nat) (s : σ) (i : Nat) : σ :=
  let r := down I n n s i
  if i < r.2 then r.1 else up I i r.1 i

/-- `heap.Fix`. -/
def fix (s : σ) (i : Nat) : σ := fixFirst I (I.len s) s i

/-- `heap.Push`, where `add` puts the new element last. -/
def push (add : σ → σ) (s : σ) : σ :=
  let s := add s
  up I (I.len s - 1) s (I.len s - 1)

/-- `heap.Remove`, where `pop` drops the last element. -/
def remove (pop : σ → σ) (s : σ) (i : Nat) : σ :=
  let n := I.len s - 1
  if n ≠ i then pop (fixFirst I n (I.swap s i n) i) else pop s

variable {I} {P : σ → Prop} {n : Nat}

/-- What every swap within the first `n` keeps, `up` keeps. -/
theorem up_induct (hswap : ∀ s i j, P s → i < n → j < n → i ≠ j → P (I.swap s i j)) :
    ∀ {fuel : Nat} {s : σ} {j : Nat}, j < n → P s → P (up I fuel s j)
  | 0, _, _, _, h => h
  | fuel + 1, s, j, hj, h => by
    unfold up
    dsimp only
    split_ifs with hc
    · exact h
    · rw [not_or] at hc
      exact up_induct hswap (by omega) (hswap s _ j h (by omega) hj hc.1)

theorem down_induct (hswap : ∀ s i j, P s → i < n → j < n → i ≠ j → P (I.swap s i j)) :
    ∀ {fuel : Nat} {s : σ} {i : Nat}, P s → P (down I n fuel s i).1
  | 0, _, _, h => h
  | fuel + 1, s, i, h => by
    unfold down
    dsimp only
    split_ifs with hn hc hl hl
    · exact h
    · exact down_induct hswap (hswap s i _ h (by omega) hc.1 (by omega))
    · exact h
    · exact down_induct hswap (hswap s i _ h (by omega) (by omega) (by omega))
    · exact h

/-- `down` ends at or below where it starts. -/
theorem le_down : ∀ {fuel : Nat} {s : σ} {i : Nat}, i ≤ (down I n fuel s i).2
  | 0, _, _ => le_rfl
  | fuel + 1, s, i => by
    unfold down
    dsimp only
    split_ifs
    · exact le_rfl
    · exact (show i ≤ 2 * i + 1 + 1 by omega).trans le_down
    · exact le_rfl
    · exact (show i ≤ 2 * i + 1 by omega).trans le_down
    · exact le_rfl

theorem fixFirst_induct (hswap : ∀ s i j, P s → i < n → j < n → i ≠ j → P (I.swap s i j))
    {s : σ} {i : Nat} (hi : i < n) (h : P s) : P (fixFirst I n s i) := by
  unfold fixFirst
  dsimp only
  split_ifs
  · exact down_induct hswap h
  · exact up_induct hswap hi (down_induct hswap h)

end Routines

/-! ## They keep the order -/

section Keeps

variable {σ κ : Type} [LinearOrder κ] {I : Interface σ} {key : σ → Nat → κ} {Good : σ → Prop}
  {n : Nat}

/-- The first `n` positions of good states have keys, `less` compares them and swaps
swap them. -/
structure Keyed (I : Interface σ) (key : σ → Nat → κ) (Good : σ → Prop) (n : Nat) : Prop where
  less_iff : ∀ {s i j}, Good s → i < n → j < n → (I.less s i j = true ↔ key s i < key s j)
  good_swap : ∀ {s i j}, Good s → i < n → j < n → i ≠ j → Good (I.swap s i j)
  key_swap : ∀ {s i j}, Good s → i < n → j < n → i ≠ j →
    key (I.swap s i j) = key s ∘ Equiv.swap i j

variable (hI : Keyed I key Good n)
include hI

theorem up_ordered : ∀ {fuel : Nat} {s : σ} {j : Nat}, j ≤ fuel → j < n →
    Good s → Gap (key s) n j → Below (key s) n j → Ordered (key (up I fuel s j)) n
  | 0, s, j, hf, hj, _, hgap, hb => by
    obtain rfl : j = 0 := by omega
    exact hgap.ordered (fun h => absurd h (lt_irrefl _)) hb
  | fuel + 1, s, j, hf, hj, hgood, hgap, hb => by
    have hp : (j - 1) / 2 < n := by omega
    unfold up
    dsimp only
    split_ifs with hc
    · refine hgap.ordered (fun h0 => ?_) hb
      rcases hc with heq | hnot
      · omega
      · rw [hI.less_iff hgood hj hp] at hnot
        exact not_lt.mp hnot
    · rw [not_or, not_not, hI.less_iff hgood hj hp] at hc
      obtain ⟨hne, hlt⟩ := hc
      obtain ⟨hgap', hb'⟩ := hgap.up hj (by omega) hb rfl hlt
      rw [← hI.key_swap hgood hp hj hne] at hgap' hb'
      exact up_ordered (by omega) hp (hI.good_swap hgood hp hj hne) hgap' hb'

/-- The lesser child, as `down` picks it. -/
theorem lesser_child {s : σ} {i j : Nat} (hgood : Good s)
    (hi : 2 * i + 1 < n)
    (hj : j = if 2 * i + 1 + 1 < n ∧ I.less s (2 * i + 1 + 1) (2 * i + 1) then 2 * i + 1 + 1
      else 2 * i + 1) :
    j < n ∧ 0 < j ∧ (j - 1) / 2 = i ∧
      ∀ k < n, 0 < k → (k - 1) / 2 = i → key s j ≤ key s k := by
  have hchild : ∀ k, 0 < k → (k - 1) / 2 = i → k = 2 * i + 1 ∨ k = 2 * i + 1 + 1 := by
    intro k hk hp
    omega
  split_ifs at hj with hc
  · obtain ⟨hn, hless⟩ := hc
    rw [hI.less_iff hgood hn hi] at hless
    subst hj
    refine ⟨hn, by omega, by omega, fun k hk hk0 hp => ?_⟩
    rcases hchild k hk0 hp with rfl | rfl
    · exact hless.le
    · exact le_rfl
  · subst hj
    refine ⟨hi, by omega, by omega, fun k hk hk0 hp => ?_⟩
    rcases hchild k hk0 hp with rfl | rfl
    · exact le_rfl
    · have hless : ¬ I.less s (2 * i + 1 + 1) (2 * i + 1) = true := fun h => hc ⟨hk, h⟩
      rw [hI.less_iff hgood hk hi] at hless
      exact not_lt.mp hless

/-- `down` stops where it starts, in order with the children there, or it moves and closes
the gap. -/
theorem down_closes : ∀ {fuel : Nat} {s : σ} {i : Nat},
    n ≤ fuel + i → i < n → Good s → Gap (key s) n i →
    (down I n fuel s i = (s, i) ∧ Below (key s) n i) ∨
      (i < (down I n fuel s i).2 ∧ Ordered (key (down I n fuel s i).1) n)
  | 0, s, i, hf, hi, _, _ => by omega
  | fuel + 1, s, i, hf, hi, hgood, hgap => by
    unfold down
    by_cases hn : n ≤ 2 * i + 1
    · rw [if_pos hn]
      exact .inl ⟨rfl, fun k hk hk0 hp => by omega⟩
    · rw [if_neg hn]
      generalize hj : (if 2 * i + 1 + 1 < n ∧ I.less s (2 * i + 1 + 1) (2 * i + 1) then
        2 * i + 1 + 1 else 2 * i + 1) = j
      obtain ⟨hjn, hj0, hp, hmin⟩ := lesser_child hI hgood (by omega) hj.symm
      by_cases hl : I.less s j i
      · rw [if_neg (not_not_intro hl)]
        rw [hI.less_iff hgood hjn hi] at hl
        obtain ⟨hgap', ha'⟩ := hgap.down hjn hj0 hp hmin hl
        have hne : i ≠ j := by omega
        rw [← hI.key_swap hgood hi hjn hne] at hgap' ha'
        refine .inr ⟨(show i < j by omega).trans_le le_down, ?_⟩
        -- The gap is in order with its parent now, so that it is closed where `down` stops.
        rcases down_closes (show n ≤ fuel + j by omega) hjn (hI.good_swap hgood hi hjn hne) hgap'
          with ⟨hstop, hb⟩ | ⟨-, hord⟩
        · rw [hstop]
          exact hgap'.ordered ha' hb
        · exact hord
      · rw [if_pos hl]
        rw [hI.less_iff hgood hjn hi, not_lt] at hl
        exact .inl ⟨rfl, fun k hk hk0 hpk => hl.trans (hmin k hk hk0 hpk)⟩

/-- Wherever the gap is, `down` and then `up` close it. -/
theorem fixFirst_ordered {s : σ} {i : Nat} (hi : i < n) (hgood : Good s)
    (hgap : Gap (key s) n i) : Ordered (key (fixFirst I n s i)) n := by
  unfold fixFirst
  rcases down_closes hI (show n ≤ n + i by omega) hi hgood hgap with ⟨hstop, hb⟩ | ⟨hlt, hord⟩
  · rw [hstop, if_neg (lt_irrefl _)]
    exact up_ordered hI le_rfl hi hgood hgap hb
  · rw [if_pos hlt]
    exact hord

end Keeps

end Cockroach.Lib.Heap
