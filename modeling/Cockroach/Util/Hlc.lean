import Mathlib

/-!
# Hybrid logical clocks (`hlc.go`, `timestamp.go`)

Wall and logical times are natural numbers: they are never negative here, and
their overflow is not modelled. A `Clock` keeps the last timestamp it has handed
out; its physical readings come from outside and may go back, the clock does not.
-/

namespace Cockroach.Hlc

/-- `hlc.Timestamp`; the empty timestamp is the zero one. -/
@[ext] structure Timestamp where
  wallTime : Nat := 0
  logical : Nat := 0
  deriving DecidableEq, Repr, Inhabited

namespace Timestamp

/-- `Timestamp.Less`. -/
instance : LT Timestamp :=
  ⟨fun t s => t.wallTime < s.wallTime ∨ t.wallTime = s.wallTime ∧ t.logical < s.logical⟩

/-- `Timestamp.LessEq`. -/
instance : LE Timestamp :=
  ⟨fun t s => t.wallTime < s.wallTime ∨ t.wallTime = s.wallTime ∧ t.logical ≤ s.logical⟩

variable {t s u : Timestamp}

theorem lt_def :
    t < s ↔ t.wallTime < s.wallTime ∨ t.wallTime = s.wallTime ∧ t.logical < s.logical := Iff.rfl

theorem le_def :
    t ≤ s ↔ t.wallTime < s.wallTime ∨ t.wallTime = s.wallTime ∧ t.logical ≤ s.logical := Iff.rfl

instance : DecidableLT Timestamp := fun t s =>
  inferInstanceAs (Decidable (t.wallTime < s.wallTime ∨
    t.wallTime = s.wallTime ∧ t.logical < s.logical))

instance : DecidableLE Timestamp := fun t s =>
  inferInstanceAs (Decidable (t.wallTime < s.wallTime ∨
    t.wallTime = s.wallTime ∧ t.logical ≤ s.logical))

instance : LinearOrder Timestamp where
  le_refl t := .inr ⟨rfl, le_rfl⟩
  le_trans t s u h h' := by
    rw [le_def] at h h' ⊢
    omega
  lt_iff_le_not_ge t s := by
    rw [lt_def, le_def, le_def]
    omega
  le_antisymm t s h h' := by
    rw [le_def] at h h'
    exact Timestamp.ext (by omega) (by omega)
  le_total t s := by
    rw [le_def, le_def]
    omega
  toDecidableLE := inferInstance
  toDecidableEq := inferInstance
  toDecidableLT := inferInstance

instance : OrderBot Timestamp where
  bot := {}
  bot_le t := by
    rw [le_def]
    show 0 < t.wallTime ∨ 0 = t.wallTime ∧ 0 ≤ t.logical
    omega

theorem empty_le (t : Timestamp) : ({} : Timestamp) ≤ t := bot_le

theorem wall_le {w : Nat} : (⟨w, 0⟩ : Timestamp) ≤ t ↔ w ≤ t.wallTime := by
  rw [le_def]
  dsimp only
  omega

/-- `Timestamp.IsEmpty`. -/
def isEmpty (t : Timestamp) : Bool := t = {}

@[simp] theorem isEmpty_iff : t.isEmpty = true ↔ t = {} := by
  unfold isEmpty
  exact decide_eq_true_iff

/-- `Timestamp.Forward`, without telling whether it moved. -/
def forward (t s : Timestamp) : Timestamp := if t < s then s else t

@[simp] theorem forward_eq_max (t s : Timestamp) : t.forward s = max t s := by
  unfold forward
  split_ifs with h
  · exact (max_eq_right h.le).symm
  · exact (max_eq_left (not_lt.mp h)).symm

/-- `Timestamp.Add`. -/
def add (t : Timestamp) (wallTime logical : Nat) : Timestamp where
  wallTime := t.wallTime + wallTime
  logical := t.logical + logical

theorem add_lt_add {d l : Nat} (h : t < s) : t.add d l < s.add d l := by
  rw [lt_def] at h ⊢
  simp only [add]
  omega

theorem add_le_add {d l : Nat} (h : t ≤ s) : t.add d l ≤ s.add d l := by
  rw [le_def] at h ⊢
  simp only [add]
  omega

theorem le_add (t : Timestamp) (d l : Nat) : t ≤ t.add d l := by
  rw [le_def]
  simp only [add]
  omega

/-- `Timestamp.Backward`. -/
def backward (t s : Timestamp) : Timestamp := if s < t then s else t

/-- `Timestamp.Prev`; `none` is its panic at the zero timestamp. -/
def prev (t : Timestamp) : Option Timestamp :=
  if 0 < t.logical then some { t with logical := t.logical - 1 }
  else if 0 < t.wallTime then some { wallTime := t.wallTime - 1, logical := 2147483647 }
  else none

end Timestamp

/-- `hlc.Clock`: the last timestamp handed out, and the tolerated offset of other
clocks (0 is none set). -/
structure Clock where
  timestamp : Timestamp := {}
  maxOffset : Nat := 0
  deriving DecidableEq, Repr, Inhabited

namespace Clock

/-- `Clock.Now` at the physical reading `physicalClock`; the new `timestamp` is
what it returns. -/
def now (c : Clock) (physicalClock : Nat) : Clock :=
  if c.timestamp.wallTime ≥ physicalClock then
    { c with timestamp := { c.timestamp with logical := c.timestamp.logical + 1 } }
  else { c with timestamp := { wallTime := physicalClock } }

/-- `Clock.Update`. -/
def update (c : Clock) (rt : Timestamp) : Clock :=
  if rt.wallTime > c.timestamp.wallTime then { c with timestamp := rt }
  else if rt.wallTime = c.timestamp.wallTime then
    if rt.logical > c.timestamp.logical then
      { c with timestamp := { c.timestamp with logical := rt.logical } }
    else c
  else c

/-- `Clock.UpdateAndCheckMaxOffset`; `none` is the error. -/
def updateAndCheckMaxOffset (c : Clock) (physicalClock : Nat) (rt : Timestamp) : Option Clock :=
  if 0 < c.maxOffset ∧ physicalClock + c.maxOffset < rt.wallTime then none
  else if physicalClock > rt.wallTime then some (c.update { wallTime := physicalClock })
  else some (c.update rt)

/-- `Clock.SleepUntil`, over the physical readings it takes; `none` when it has
not returned after the last of them. -/
def sleepUntil (c : Clock) (t : Timestamp) : List Nat → Option Clock
  | [] => none
  | physicalClock :: rest =>
    let c := c.now physicalClock
    if t ≤ c.timestamp then some c else sleepUntil c t rest

theorem lt_now (c : Clock) (p : Nat) : c.timestamp < (c.now p).timestamp := by
  unfold now
  rw [Timestamp.lt_def]
  split_ifs with h
  · exact .inr ⟨rfl, Nat.lt_succ_self _⟩
  · exact .inl (not_le.mp h)

theorem le_update (c : Clock) (rt : Timestamp) : c.timestamp ≤ (c.update rt).timestamp := by
  unfold update
  rw [Timestamp.le_def]
  split_ifs with h h' h''
  · exact .inl h
  · exact .inr ⟨rfl, h''.le⟩
  · exact .inr ⟨rfl, le_rfl⟩
  · exact .inr ⟨rfl, le_rfl⟩

theorem le_sleepUntil {t : Timestamp} {c' : Clock} :
    ∀ {ps : List Nat} {c : Clock}, c.sleepUntil t ps = some c' → t ≤ c'.timestamp
  | [], c, h => by cases h
  | p :: ps, c, h => by
    unfold sleepUntil at h
    dsimp only at h
    split_ifs at h with hle
    · cases h
      exact hle
    · exact le_sleepUntil h

end Clock

end Cockroach.Hlc
