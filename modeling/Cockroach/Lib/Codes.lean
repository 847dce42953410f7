import Cockroach.Lib.Bytes
import Cockroach.Lib.Outcome

/-!
# Self-delimiting codes

A code is a list of symbols written in front of anything else. Three notions say what a
code is good for:

* `Precedes c d`: the codes differ at a place within both and `c` has the smaller symbol
  there, so `c` sorts before `d` whatever is written after them (`Precedes.append_lt`);
* `Measures len c`: `len` finds the length of `c` whatever follows;
* `Reads read c a`: `read` gives `a` and leaves exactly what follows.

Codes one after another, up to a symbol that starts none of them, are counted and measured by
`measureUntil` (`measureUntil_flatten`).
-/

namespace Cockroach.Lib

open List

/-! ## Order -/

section Order

variable {σ : Type*} [LinearOrder σ] {a b : σ} {c d : List σ}

/-- The codes differ at a place within both, `c` with the smaller symbol. -/
def Precedes (c d : List σ) : Prop :=
  ∃ p a b c' d', c = p ++ a :: c' ∧ d = p ++ b :: d' ∧ a < b

theorem precedes_of_head_lt (h : a < b) : Precedes (a :: c) (b :: d) :=
  ⟨[], a, b, c, d, rfl, rfl, h⟩

theorem Precedes.prepend (p : List σ) (h : Precedes c d) : Precedes (p ++ c) (p ++ d) := by
  obtain ⟨q, a, b, c', d', rfl, rfl, hab⟩ := h
  exact ⟨p ++ q, a, b, c', d', by simp, by simp, hab⟩

theorem Precedes.cons (a : σ) (h : Precedes c d) : Precedes (a :: c) (a :: d) := h.prepend [a]

theorem Precedes.append (h : Precedes c d) (s t : List σ) : Precedes (c ++ s) (d ++ t) := by
  obtain ⟨q, a, b, c', d', rfl, rfl, hab⟩ := h
  exact ⟨q, a, b, c' ++ s, d' ++ t, by simp, by simp, hab⟩

/-- Whatever follows, the codes sort as they differ. -/
theorem Precedes.append_lt (h : Precedes c d) (s t : List σ) : c ++ s < d ++ t := by
  obtain ⟨q, a, b, c', d', rfl, rfl, hab⟩ := h
  induction q with
  | nil => exact cons_lt_cons_iff.mpr (.inl hab)
  | cons x q ih => exact cons_lt_cons_iff.mpr (.inr ⟨rfl, ih⟩)

/-- A map that reverses the order of symbols reverses that of codes. -/
theorem Precedes.map_anti {τ : Type*} [LinearOrder τ] {f : σ → τ} (hf : StrictAnti f)
    (h : Precedes c d) : Precedes (d.map f) (c.map f) := by
  obtain ⟨q, a, b, c', d', rfl, rfl, hab⟩ := h
  exact ⟨q.map f, f b, f a, d'.map f, c'.map f, by simp, by simp, hf hab⟩

/-- Codes of equally many items, one after another, sort as the items; `code'` descends. -/
theorem precedes_flatMap {α : Type*} {r : α → α → Prop} {code code' : α → List σ}
    (hcode : ∀ {x y}, r x y → Precedes (code x) (code y) ∧ Precedes (code' y) (code' x))
    {xs ys : List α} (hlen : xs.length = ys.length) (h : Lex r xs ys) :
    Precedes (xs.flatMap code) (ys.flatMap code) ∧
      Precedes (ys.flatMap code') (xs.flatMap code') := by
  induction h with
  | nil => cases hlen
  | cons _ ih =>
    obtain ⟨hasc, hdesc⟩ := ih (Nat.succ.inj hlen)
    exact ⟨hasc.prepend _, hdesc.prepend _⟩
  | rel h =>
    obtain ⟨hasc, hdesc⟩ := hcode h
    exact ⟨hasc.append _ _, hdesc.append _ _⟩

end Order

/-! ### Bytes -/

theorem strictAnti_complement : StrictAnti (fun b : UInt8 => ~~~ b) := by
  intro a b h
  have hb : b.toNat < 256 := b.toNat_lt
  rw [UInt8.lt_iff_toNat_lt] at h ⊢
  simp only [UInt8.toNat_not, UInt8.size]
  omega

theorem bigEndian_precedes_mod {n v w : Nat} (h : v % 256 ^ n < w % 256 ^ n) :
    Precedes (bigEndian n v) (bigEndian n w) := by
  induction n with
  | zero => rw [pow_zero, Nat.mod_one, Nat.mod_one] at h; omega
  | succ n ih =>
    rw [mod_pow_succ_lt_iff] at h
    show Precedes (UInt8.ofNat (v / 256 ^ n) :: bigEndian n v)
      (UInt8.ofNat (w / 256 ^ n) :: bigEndian n w)
    rcases h with hhigh | ⟨hhigh, hlow⟩
    · apply precedes_of_head_lt
      rw [UInt8.lt_iff_toNat_lt, toNat_ofNat_byte, toNat_ofNat_byte]
      exact hhigh
    · have heq : UInt8.ofNat (v / 256 ^ n) = UInt8.ofNat (w / 256 ^ n) := by
        rw [← UInt8.toNat_inj, toNat_ofNat_byte, toNat_ofNat_byte]
        exact hhigh
      rw [heq]
      exact (ih hlow).cons _

/-- Numbers of one length in big-endian form sort as the numbers. -/
theorem bigEndian_precedes {n v w : Nat} (h : v < w) (hw : w < 256 ^ n) :
    Precedes (bigEndian n v) (bigEndian n w) := by
  apply bigEndian_precedes_mod
  rwa [Nat.mod_eq_of_lt (h.trans hw), Nat.mod_eq_of_lt hw]

/-! ## Lengths and contents -/

section Reading

variable {σ ε α : Type}

/-- `len` finds the length of `c` whatever follows it. -/
def Measures (len : List σ → Except ε Nat) (c : List σ) : Prop :=
  ∀ s, len (c ++ s) = .ok c.length

/-- `read` gives `a` for the code `c` and leaves exactly what follows it. -/
def Reads (read : List σ → Except ε (List σ × α)) (c : List σ) (a : α) : Prop :=
  ∀ s, read (c ++ s) = .ok (s, a)

/-- Repeated measuring up to the symbol `stop`: how many items there are and how long they
are together. It gives up with `short` when the input ends. -/
def measureUntil [DecidableEq σ] (len : List σ → Except ε Nat) (stop : σ) (short : ε) :
    Nat → List σ → Except ε (Nat × Nat)
  | 0, _ => .error short
  | _ + 1, [] => .error short
  | fuel + 1, x :: s =>
    if x = stop then .ok (0, 0)
    else do
      let n ← len (x :: s)
      let rest ← measureUntil len stop short fuel ((x :: s).drop n)
      .ok (rest.1 + 1, n + rest.2)

/-- Items that `len` measures and that do not begin with `stop` are measured up to it. -/
theorem measureUntil_flatten [DecidableEq σ] {len : List σ → Except ε Nat} {stop : σ}
    {short : ε} {items : List (List σ)} (hitems : ∀ c ∈ items, Measures len c)
    (hstop : ∀ c ∈ items, ∃ x c', c = x :: c' ∧ x ≠ stop) {fuel : Nat}
    (hfuel : items.flatten.length < fuel) (s : List σ) :
    measureUntil len stop short fuel (items.flatten ++ stop :: s) =
      .ok (items.length, items.flatten.length) := by
  induction items generalizing fuel with
  | nil =>
    obtain ⟨fuel, rfl⟩ : ∃ k, fuel = k + 1 := ⟨fuel - 1, by omega⟩
    simp [measureUntil]
  | cons c items ih =>
    obtain ⟨fuel, rfl⟩ : ∃ k, fuel = k + 1 := ⟨fuel - 1, by omega⟩
    obtain ⟨x, c', rfl, hx⟩ := hstop c mem_cons_self
    rw [flatten_cons, length_append, length_cons] at hfuel
    have hlen := hitems (x :: c') mem_cons_self (items.flatten ++ stop :: s)
    have hrest := ih (fun d hd => hitems d (mem_cons_of_mem _ hd))
      (fun d hd => hstop d (mem_cons_of_mem _ hd)) (show _ < fuel by omega)
    have hdrop : ((x :: c') ++ (items.flatten ++ stop :: s)).drop (x :: c').length =
        items.flatten ++ stop :: s := drop_left
    rw [flatten_cons, append_assoc]
    show measureUntil len stop short (fuel + 1) (x :: (c' ++ (items.flatten ++ stop :: s))) = _
    rw [cons_append] at hlen hdrop
    simp only [measureUntil, if_neg hx, hlen, bind, Except.bind, hdrop, hrest]
    simp [Nat.add_right_comm]

end Reading

end Cockroach.Lib
