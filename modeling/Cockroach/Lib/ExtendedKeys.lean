import Mathlib

/-!
# Tuples and the gaps between them, in one order

A tuple that is cut short stands for all its continuations. `bound ⊥ k` lies just before
them and `bound ⊤ k` just after, in the lexicographic order of tuples whose values have
infinities on both sides. `point v t` is where the tuple `t` itself lies: a bound is
compared with it by looking at as many values as the bound has (`bot_lt_point`,
`top_lt_point`, `point_lt_top`, `point_lt_bot`).

Tuples between two that begin alike begin like them (`take_eq_of_between`).

`threeWay` is a comparison with the result `-1`, `0` or `1`.
-/

namespace Cockroach.Lib

open List hiding getElem?_eq_some_iff

variable {V : Type*}

/-! ## Three-way comparison -/

def threeWay [LinearOrder V] (a b : V) : Int := if a < b then -1 else if b < a then 1 else 0

section ThreeWay

variable [LinearOrder V] {a b : V}

@[simp] theorem threeWay_self (a : V) : threeWay a a = 0 := by
  simp [threeWay]

theorem threeWay_of_lt (h : a < b) : threeWay a b = -1 := if_pos h

theorem threeWay_of_gt (h : b < a) : threeWay a b = 1 := by
  rw [threeWay, if_neg h.not_gt, if_pos h]

theorem threeWay_neg_iff : threeWay a b < 0 ↔ a < b := by
  rcases lt_trichotomy a b with h | rfl | h
  · simp [threeWay_of_lt h, h]
  · simp
  · simp [threeWay_of_gt h, h.not_gt]

theorem threeWay_pos_iff : 0 < threeWay a b ↔ b < a := by
  rcases lt_trichotomy a b with h | rfl | h
  · simp [threeWay_of_lt h, h.not_gt]
  · simp
  · simp [threeWay_of_gt h, h]

theorem threeWay_nonneg_iff : 0 ≤ threeWay a b ↔ b ≤ a := by
  rw [← not_lt, ← not_lt, threeWay_neg_iff]

theorem threeWay_nonpos_iff : threeWay a b ≤ 0 ↔ a ≤ b := by
  rw [← not_lt, ← not_lt, threeWay_pos_iff]

theorem neg_threeWay (a b : V) : -threeWay a b = threeWay b a := by
  rcases lt_trichotomy a b with h | rfl | h
  · rw [threeWay_of_lt h, threeWay_of_gt h, neg_neg]
  · simp
  · rw [threeWay_of_gt h, threeWay_of_lt h]

/-- An embedding of orders keeps comparisons. -/
theorem threeWay_congr {W : Type*} [LinearOrder W] {f : V → W} (hf : ∀ {a b}, f a < f b ↔ a < b)
    (a b : V) : threeWay (f a) (f b) = threeWay a b := by
  rcases lt_trichotomy a b with h | rfl | h
  · rw [threeWay_of_lt h, threeWay_of_lt (hf.mpr h)]
  · simp
  · rw [threeWay_of_gt h, threeWay_of_gt (hf.mpr h)]

/-- Lists are compared at the first place where they differ. -/
theorem threeWay_cons (a b : V) (k l : List V) :
    threeWay (a :: k) (b :: l) = if threeWay a b ≠ 0 then threeWay a b else threeWay k l := by
  rcases lt_trichotomy a b with h | rfl | h
  · rw [threeWay_of_lt h, threeWay_of_lt (cons_lt_cons_iff.mpr (.inl h))]
    rfl
  · rw [threeWay_self, if_neg (by decide)]
    refine threeWay_congr (f := (a :: ·)) ?_ k l
    intro k l
    simp
  · rw [threeWay_of_gt h, threeWay_of_gt (cons_lt_cons_iff.mpr (.inl h))]
    rfl

end ThreeWay

/-! ## Bounds and points -/

/-- A value, or an infinity. -/
abbrev Digit (V : Type*) := WithBot (WithTop V)

/-- A value among the digits. -/
def Digit.val (v : V) : Digit V := ((v : WithTop V) : WithBot (WithTop V))

theorem Digit.val_inj {v w : V} : Digit.val v = Digit.val w ↔ v = w := by
  unfold Digit.val
  rw [WithBot.coe_inj, WithTop.coe_inj]

/-- The tuple `k` followed by `e`. -/
def bound (e : Digit V) (k : List V) : List (Digit V) := k.map Digit.val ++ [e]

/-- Where a tuple lies among the bounds; any value may stand at its end. -/
def point (v : V) (t : List V) : List (Digit V) := bound (.val v) t

@[simp] theorem bound_nil (e : Digit V) : bound e [] = [e] := rfl

@[simp] theorem bound_cons (e : Digit V) (v : V) (k : List V) :
    bound e (v :: k) = .val v :: bound e k := rfl

theorem point_cons (v w : V) (t : List V) : point v (w :: t) = .val w :: point v t := rfl

variable [LinearOrder V]

theorem Digit.val_lt_val {v w : V} : Digit.val v < Digit.val w ↔ v < w := by
  unfold Digit.val
  rw [WithBot.coe_lt_coe, WithTop.coe_lt_coe]

theorem Digit.bot_lt_val (v : V) : ⊥ < Digit.val v := WithBot.bot_lt_coe _

theorem Digit.val_lt_top (v : V) : Digit.val v < ⊤ := WithBot.coe_lt_coe.mpr (WithTop.coe_lt_top v)

theorem cons_lt_cons_digit {v w : V} {p q : List (Digit V)} :
    Digit.val v :: p < Digit.val w :: q ↔ v < w ∨ v = w ∧ p < q := by
  rw [cons_lt_cons_iff, Digit.val_lt_val, Digit.val_inj]

theorem bound_lt_bound_nil {e f : Digit V} : bound e ([] : List V) < bound f [] ↔ e < f := by
  rw [bound_nil, bound_nil, cons_lt_cons_iff]
  simp

theorem cons_le_cons_iff {v w : V} {k l : List V} : v :: k ≤ w :: l ↔ v < w ∨ v = w ∧ k ≤ l := by
  rw [← not_lt, cons_lt_cons_iff, ← not_lt]
  constructor
  · intro h
    rcases lt_trichotomy v w with hvw | rfl | hvw
    · exact .inl hvw
    · exact .inr ⟨rfl, fun hlt => h (.inr ⟨rfl, hlt⟩)⟩
    · exact absurd (.inl hvw) h
  · rintro (hvw | ⟨rfl, hlt⟩) (h | ⟨heq, h⟩)
    · exact hvw.not_gt h
    · exact hvw.ne heq.symm
    · exact h.ne rfl
    · exact hlt h

section Points

variable {v : V} {k t : List V} (h : k.length ≤ t.length)
include h

/-- A tuple lies after the lower bound of `k` when it starts at or after `k`. -/
theorem bot_lt_point : bound ⊥ k < point v t ↔ k ≤ t.take k.length := by
  induction k generalizing t with
  | nil =>
    have hlt : bound ⊥ ([] : List V) < point v t := by
      cases t with
      | nil => exact bound_lt_bound_nil.mpr (Digit.bot_lt_val v)
      | cons w t => exact cons_lt_cons_iff.mpr (.inl (Digit.bot_lt_val w))
    simpa using hlt
  | cons w k ih =>
    cases t with
    | nil => exact absurd h (by simp)
    | cons w' t =>
      rw [bound_cons, point_cons, cons_lt_cons_digit, ih (by simpa using h),
        length_cons, take_succ_cons, cons_le_cons_iff]

/-- A tuple lies after the upper bound of `k` when it starts after `k`. -/
theorem top_lt_point : bound ⊤ k < point v t ↔ k < t.take k.length := by
  induction k generalizing t with
  | nil =>
    have hge : ¬ bound ⊤ ([] : List V) < point v t := by
      cases t with
      | nil => exact fun hlt => (bound_lt_bound_nil.mp hlt).not_gt (Digit.val_lt_top v)
      | cons w t =>
        intro hlt
        rcases cons_lt_cons_iff.mp hlt with hlt | ⟨heq, -⟩
        · exact hlt.not_gt (Digit.val_lt_top w)
        · exact (Digit.val_lt_top w).ne heq.symm
    simpa using hge
  | cons w k ih =>
    cases t with
    | nil => exact absurd h (by simp)
    | cons w' t =>
      rw [bound_cons, point_cons, cons_lt_cons_digit, ih (by simpa using h),
        length_cons, take_succ_cons, cons_lt_cons_iff]

theorem point_ne_bound {e : Digit V} (he : e = ⊥ ∨ e = ⊤) :
    point v t ≠ bound e k := by
  induction k generalizing t with
  | nil =>
    intro heq
    have hhead := congrArg head? heq
    cases t with
    | nil =>
      rcases he with rfl | rfl
      · exact (Digit.bot_lt_val v).ne' (Option.some.inj hhead)
      · exact (Digit.val_lt_top v).ne (Option.some.inj hhead)
    | cons w t =>
      rcases he with rfl | rfl
      · exact (Digit.bot_lt_val w).ne' (Option.some.inj hhead)
      · exact (Digit.val_lt_top w).ne (Option.some.inj hhead)
  | cons w k ih =>
    cases t with
    | nil => exact absurd h (by simp)
    | cons w' t =>
      intro heq
      rw [bound_cons, point_cons] at heq
      exact ih (by simpa using h) (cons.inj heq).2

/-- A tuple lies before the upper bound of `k` when it starts at or before `k`. -/
theorem point_lt_top : point v t < bound ⊤ k ↔ t.take k.length ≤ k := by
  rw [← not_lt (a := k), ← top_lt_point (v := v) h, not_lt]
  exact ⟨le_of_lt, fun hle => hle.lt_of_ne (point_ne_bound h (.inr rfl))⟩

/-- A tuple lies before the lower bound of `k` when it starts before `k`. -/
theorem point_lt_bot : point v t < bound ⊥ k ↔ t.take k.length < k := by
  rw [← not_le (a := k), ← bot_lt_point (v := v) h, not_lt]
  exact ⟨le_of_lt, fun hle => hle.lt_of_ne (point_ne_bound h (.inl rfl))⟩

end Points

/-! ## Leading values -/

section Leading

variable {a b t : List V} {n : Nat} {x y : V}

/-- What lies between two tuples that begin alike begins like them. -/
theorem take_eq_of_between (hab : a.take n = b.take n) (hna : n ≤ a.length) (hnb : n ≤ b.length)
    (ha : a ≤ t.take a.length) (hb : t.take b.length ≤ b) : t.take n = a.take n := by
  induction n generalizing a b t with
  | zero => simp
  | succ n ih =>
    cases a with
    | nil => exact absurd hna (by simp)
    | cons x a =>
    cases b with
    | nil => exact absurd hnb (by simp)
    | cons y b =>
    cases t with
    | nil => exact absurd ha (by simp)
    | cons z t =>
      obtain ⟨rfl, htail⟩ := cons.inj hab
      rw [length_cons, take_succ_cons, cons_le_cons_iff] at ha hb
      rcases ha with ha | ⟨rfl, ha⟩
      · rcases hb with hb | ⟨rfl, -⟩
        · exact absurd hb ha.not_gt
        · exact absurd rfl ha.ne
      · have hb := (hb.resolve_left (lt_irrefl _)).2
        rw [take_succ_cons, take_succ_cons,
          ih htail (by simpa using hna) (by simpa using hnb) ha hb]

/-- Tuples that begin alike are compared by the next value. -/
theorem getElem?_le_of_le (hab : a ≤ b) (htake : a.take n = b.take n) (hx : a[n]? = some x)
    (hy : b[n]? = some y) : x ≤ y := by
  have hsplit : ∀ {l : List V} {v : V}, l[n]? = some v → l.take n ++ v :: l.drop (n + 1) = l := by
    intro l v hv
    obtain ⟨hn, rfl⟩ := List.getElem?_eq_some_iff.mp hv
    rw [← drop_eq_getElem_cons hn, take_append_drop]
  by_contra hlt
  rw [← hsplit hx, ← hsplit hy, htake] at hab
  exact hab.not_gt (append_left_lt (cons_lt_cons_iff.mpr (.inl (not_le.mp hlt))))

/-- Different tuples that begin alike differ in the last value. -/
theorem getElem?_lt_of_lt (hab : a < b) (htake : a.take n = b.take n) (hx : a[n]? = some x)
    (hy : b[n]? = some y) (ha : a.length = n + 1) (hb : b.length = n + 1) : x < y := by
  refine (getElem?_le_of_le hab.le htake hx hy).lt_of_ne ?_
  rintro rfl
  refine hab.ne ?_
  have htake' : a.take (n + 1) = b.take (n + 1) := by
    rw [take_add_one, take_add_one, htake, hx, hy]
  rwa [take_of_length_le ha.le, take_of_length_le hb.le] at htake'

end Leading

end Cockroach.Lib
