import Mathlib

/-!
# Outcomes of computations that may stop

A computation in `Except ε` either stops with an `ε` or returns. `Sat x E Q`
bounds both outcomes: `E` holds of whatever stops the computation and `Q` of
whatever it returns. The rules below follow the shape of a program, one rule a
construct, so that a specification is proved by walking down the code.
-/

namespace Cockroach.Lib

variable {ε α β : Type}

/-- `E` holds if `x` stops, `Q` if it returns. -/
def Sat (x : Except ε α) (E : ε → Prop) (Q : α → Prop) : Prop :=
  match x with
  | .error e => E e
  | .ok a => Q a

/-- What `x` returns satisfies `Q`; nothing is said about stopping. -/
abbrev Returns (x : Except ε α) (Q : α → Prop) : Prop := Sat x (fun _ => True) Q

variable {E : ε → Prop} {Q : α → Prop} {x : Except ε α}

@[simp] theorem sat_ok {a : α} : Sat (.ok a : Except ε α) E Q ↔ Q a := Iff.rfl

@[simp] theorem sat_pure {a : α} : Sat (pure a : Except ε α) E Q ↔ Q a := Iff.rfl

@[simp] theorem sat_error {e : ε} : Sat (.error e : Except ε α) E Q ↔ E e := Iff.rfl

@[simp] theorem sat_throw {e : ε} : Sat (throw e : Except ε α) E Q ↔ E e := Iff.rfl

theorem sat_iff : Sat x E Q ↔ (∀ e, x = .error e → E e) ∧ (∀ a, x = .ok a → Q a) := by
  cases x <;> simp

theorem returns_iff : Returns x Q ↔ ∀ a, x = .ok a → Q a := by
  simp [Returns, sat_iff]

theorem Sat.elim (h : Sat x E Q) {a : α} (hx : x = .ok a) : Q a := (sat_iff.mp h).2 a hx

theorem Sat.stop (h : Sat x E Q) {e : ε} (hx : x = .error e) : E e := (sat_iff.mp h).1 e hx

theorem Sat.mono {E E' : ε → Prop} {Q Q' : α → Prop} (h : Sat x E Q)
    (hE : ∀ e, E e → E' e) (hQ : ∀ a, Q a → Q' a) : Sat x E' Q' := by
  cases x with
  | error e => exact hE e h
  | ok a => exact hQ a h

theorem Sat.imp {Q Q' : α → Prop} (h : Sat x E Q)
    (hQ : ∀ a, Q a → Q' a) : Sat x E Q' := h.mono (fun _ h => h) hQ

theorem Sat.and {Q Q' : α → Prop} (h : Sat x E Q)
    (h' : Returns x Q') : Sat x E fun a => Q a ∧ Q' a := by
  cases x with
  | error e => exact h
  | ok a => exact ⟨h, h'⟩

/-- The rule of sequencing. -/
theorem Sat.bind {f : α → Except ε β} {P : α → Prop}
    {Q : β → Prop} (hx : Sat x E P) (hf : ∀ a, P a → Sat (f a) E Q) : Sat (x >>= f) E Q := by
  cases x with
  | error e => exact hx
  | ok a => exact hf a hx

/-- Sequencing where nothing is said about stopping. -/
theorem Returns.seq {f : α → Except ε β} {Q : β → Prop}
    (hf : ∀ a, x = .ok a → Returns (f a) Q) : Returns (x >>= f) Q := by
  cases x with
  | error e => trivial
  | ok a => exact hf a rfl

theorem Sat.ite {c : Prop} [Decidable c] {x y : Except ε α}
    (ht : c → Sat x E Q) (hf : ¬ c → Sat y E Q) : Sat (if c then x else y) E Q := by
  split
  · exact ht ‹_›
  · exact hf ‹_›

theorem bind_eq_ok {f : α → Except ε β} {b : β} :
    (x >>= f) = .ok b ↔ ∃ a, x = .ok a ∧ f a = .ok b := by
  cases x with
  | error | ok => simp [Bind.bind, Except.bind]

theorem map_eq_ok {f : α → β} {b : β} : x.map f = .ok b ↔ ∃ a, x = .ok a ∧ f a = b := by
  cases x with
  | error | ok => simp [Except.map]

theorem map_eq_error {f : α → β} {e : ε} : x.map f = .error e ↔ x = .error e := by
  cases x with
  | error | ok => simp [Except.map]

/-- A loop over a list keeps an invariant that each pass keeps. -/
theorem Sat.foldlM {γ : Type} {f : β → γ → Except ε β} {E : ε → Prop} {I : β → Prop} :
    ∀ {l : List γ} {b : β}, (∀ b, ∀ c ∈ l, I b → Sat (f b c) E I) → I b →
      Sat (l.foldlM f b) E I
  | [], b, _, hb => by simpa using hb
  | c :: l, b, hf, hb => by
    rw [List.foldlM_cons]
    exact Sat.bind (hf b c List.mem_cons_self hb) fun b' hb' =>
      Sat.foldlM (fun b c hc => hf b c (List.mem_cons_of_mem _ hc)) hb'

end Cockroach.Lib
