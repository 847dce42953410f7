import Mathlib

/-!
# Byte strings in lexicographic order

Byte strings are compared as `bytes.Compare` compares them: byte by byte, a proper
prefix first. The next byte string after `s` is `s ++ [0]`: nothing lies between them
(`lt_append_zero_iff`). Numbers in big-endian form are ordered as numbers
(`bigEndian_append_lt_iff`) and can be read back (`uint_bigEndian`).
-/

namespace Cockroach.Lib

open List

instance instLinearOrderByte : LinearOrder UInt8 where
  le_refl a := UInt8.le_refl a
  le_trans a b c := UInt8.le_trans
  lt_iff_le_not_ge a b := by
    rw [UInt8.lt_iff_toNat_lt, UInt8.le_iff_toNat_le, UInt8.le_iff_toNat_le]
    omega
  le_antisymm a b := UInt8.le_antisymm
  le_total a b := UInt8.le_total a b
  toDecidableLE := inferInstance
  toDecidableEq := inferInstance
  toDecidableLT := inferInstance

theorem UInt8.not_lt_zero (a : UInt8) : ¬ a < 0 := by
  rw [UInt8.lt_iff_toNat_lt]
  exact Nat.not_lt_zero _

theorem lt_append_zero (s : List UInt8) : s < s ++ [0] := by
  induction s with
  | nil => exact nil_lt_cons 0 []
  | cons a s ih => exact cons_lt_cons_iff.mpr (.inr ⟨rfl, ih⟩)

variable {s t : List UInt8}

/-- What lies below the next byte string is at or below this one. -/
theorem lt_append_zero_iff : t < s ++ [0] ↔ t ≤ s := by
  refine ⟨fun h => ?_, fun h => h.trans_lt (lt_append_zero s)⟩
  induction s generalizing t with
  | nil =>
    cases t with
    | nil => exact le_rfl
    | cons b t =>
      rcases cons_lt_cons_iff.mp h with hb | ⟨rfl, ht⟩
      · exact absurd hb (UInt8.not_lt_zero b)
      · exact absurd ht (not_lt_nil t)
  | cons a s ih =>
    cases t with
    | nil => exact (nil_lt_cons a s).le
    | cons b t =>
      rcases cons_lt_cons_iff.mp h with hb | ⟨rfl, ht⟩
      · exact (cons_lt_cons_iff.mpr (.inl hb)).le
      · rcases (ih ht).lt_or_eq with hlt | rfl
        · exact (cons_lt_cons_iff.mpr (.inr ⟨rfl, hlt⟩)).le
        · exact le_rfl

/-- Appending a zero byte keeps the order. -/
theorem append_zero_lt_iff : s ++ [0] < t ++ [0] ↔ s < t := by
  constructor
  · intro h
    refine lt_of_le_of_ne (lt_append_zero_iff.mp ((lt_append_zero s).trans h)) ?_
    rintro rfl
    exact lt_irrefl _ h
  · intro h
    refine lt_of_le_of_ne (not_lt.mp fun hlt => ?_) fun heq => ?_
    · exact absurd h (not_lt.mpr (lt_append_zero_iff.mp ((lt_append_zero t).trans hlt)))
    · exact h.ne (append_cancel_right heq)

/-! ## Big-endian numbers -/

/-- The last `n` bytes of a number, the highest first. -/
def bigEndian : Nat → Nat → List UInt8
  | 0, _ => []
  | n + 1, v => UInt8.ofNat (v / 256 ^ n) :: bigEndian n v

/-- The number that bytes stand for, the highest first. -/
def uint (bs : List UInt8) : Nat := bs.foldl (fun v b => v * 256 + b.toNat) 0

theorem uint_lt (bs : List UInt8) : uint bs < 256 ^ bs.length := by
  induction bs using List.reverseRecOn with
  | nil => exact Nat.one_pos
  | append_singleton bs b ih =>
    have hb := b.toNat_lt
    have hsnoc : uint (bs ++ [b]) = uint bs * 256 + b.toNat := List.foldl_concat ..
    rw [hsnoc, List.length_append, List.length_singleton, pow_succ]
    omega

@[simp] theorem length_bigEndian (n v : Nat) : (bigEndian n v).length = n := by
  induction n with
  | zero => rfl
  | succ n ih => exact congrArg Nat.succ ih

theorem toNat_ofNat_byte (v : Nat) : (UInt8.ofNat v).toNat = v % 256 := by
  simp

theorem uint_bigEndian_mod (n v acc : Nat) :
    (bigEndian n v).foldl (fun v b => v * 256 + b.toNat) acc = acc * 256 ^ n + v % 256 ^ n := by
  induction n generalizing acc with
  | zero =>
    show acc = acc * 256 ^ 0 + v % 256 ^ 0
    omega
  | succ n ih =>
    show (bigEndian n v).foldl _ (acc * 256 + (UInt8.ofNat (v / 256 ^ n)).toNat) = _
    rw [ih, toNat_ofNat_byte]
    have hmod : v % 256 ^ (n + 1) = 256 ^ n * (v / 256 ^ n % 256) + v % 256 ^ n := by
      rw [pow_succ, Nat.mod_mul, Nat.add_comm]
    rw [hmod]
    ring

theorem uint_bigEndian {n v : Nat} (h : v < 256 ^ n) : uint (bigEndian n v) = v := by
  unfold uint
  rw [uint_bigEndian_mod, Nat.zero_mul, Nat.zero_add, Nat.mod_eq_of_lt h]

theorem bigEndian_injective {n v w : Nat} (hv : v < 256 ^ n) (hw : w < 256 ^ n)
    (h : bigEndian n v = bigEndian n w) : v = w := by
  rw [← uint_bigEndian hv, h, uint_bigEndian hw]

/-- Two digits over a base compare by the high one first. -/
theorem digit_lt_iff {m a b x y : Nat} (hx : x < m) (hy : y < m) :
    m * a + x < m * b + y ↔ a < b ∨ a = b ∧ x < y := by
  rcases lt_trichotomy a b with h | h | h
  · have := Nat.mul_le_mul_left m (Nat.succ_le_of_lt h)
    rw [Nat.mul_succ] at this
    omega
  · subst h
    omega
  · have := Nat.mul_le_mul_left m (Nat.succ_le_of_lt h)
    rw [Nat.mul_succ] at this
    omega

/-- Numbers of some bytes compare by the first byte first. -/
theorem mod_pow_succ_lt_iff (n v w : Nat) : v % 256 ^ (n + 1) < w % 256 ^ (n + 1) ↔
      v / 256 ^ n % 256 < w / 256 ^ n % 256 ∨
        v / 256 ^ n % 256 = w / 256 ^ n % 256 ∧ v % 256 ^ n < w % 256 ^ n := by
  have hpos : 0 < 256 ^ n := Nat.pow_pos (by omega)
  rw [pow_succ, Nat.mod_mul, Nat.mod_mul, Nat.add_comm, Nat.add_comm (w % _),
    digit_lt_iff (Nat.mod_lt v hpos) (Nat.mod_lt w hpos)]

theorem bigEndian_append_lt_iff_mod (n v w : Nat) : bigEndian n v ++ s < bigEndian n w ++ t ↔
      v % 256 ^ n < w % 256 ^ n ∨ v % 256 ^ n = w % 256 ^ n ∧ s < t := by
  induction n with
  | zero =>
    rw [pow_zero, Nat.mod_one, Nat.mod_one]
    show s < t ↔ _
    simp
  | succ n ih =>
    show UInt8.ofNat (v / 256 ^ n) :: (bigEndian n v ++ s) <
      UInt8.ofNat (w / 256 ^ n) :: (bigEndian n w ++ t) ↔ _
    have hlt := mod_pow_succ_lt_iff n v w
    have hgt := mod_pow_succ_lt_iff n w v
    have heq : v % 256 ^ (n + 1) = w % 256 ^ (n + 1) ↔
        v / 256 ^ n % 256 = w / 256 ^ n % 256 ∧ v % 256 ^ n = w % 256 ^ n := by omega
    rw [cons_lt_cons_iff, ih, UInt8.lt_iff_toNat_lt, ← UInt8.toNat_inj, toNat_ofNat_byte,
      toNat_ofNat_byte, hlt, heq, or_assoc, and_or_left, and_assoc]

/-- The order of big-endian numbers is the order of the numbers. -/
theorem bigEndian_append_lt_iff {n v w : Nat} (hv : v < 256 ^ n) (hw : w < 256 ^ n) :
    bigEndian n v ++ s < bigEndian n w ++ t ↔ v < w ∨ v = w ∧ s < t := by
  rw [bigEndian_append_lt_iff_mod, Nat.mod_eq_of_lt hv, Nat.mod_eq_of_lt hw]

end Cockroach.Lib
