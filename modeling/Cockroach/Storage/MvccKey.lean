import Cockroach.Lib.Bytes
import Cockroach.Util.Hlc

/-!
# MVCC keys (`mvcc_key.go`)

A key and a timestamp. The versions of a key are ordered from the newest to the oldest,
after what is stored at the key without a timestamp (metadata and inline values).
-/

namespace Cockroach.Storage

open Lib Hlc

/-- `roachpb.Key`. -/
abbrev Key := List UInt8

/-- `Key.Next`. -/
def Key.next (k : Key) : Key := k ++ [0]

/-- `MVCCKey`. -/
@[ext] structure MVCCKey where
  key : Key
  timestamp : Timestamp := {}
  deriving DecidableEq, Repr, Inhabited

namespace MVCCKey

/-- `MVCCKey.IsValue`. -/
def isValue (k : MVCCKey) : Bool := !k.timestamp.isEmpty

theorem isValue_iff {k : MVCCKey} : k.isValue = true ↔ k.timestamp ≠ {} := by
  unfold isValue
  rw [Bool.not_eq_true', ← Bool.not_eq_true, Timestamp.isEmpty_iff]

/-- `MVCCKey.Less`. -/
def less (k l : MVCCKey) : Bool :=
  if k.key ≠ l.key then decide (k.key < l.key)
  else if !k.isValue then l.isValue
  else if !l.isValue then false
  else decide (l.timestamp < k.timestamp)

/-- `MVCCVersionTimestampSize`. -/
def versionTimestampSize : Nat := 12

/-- `MVCCKey.EncodedSize`. -/
def encodedSize (k : MVCCKey) : Nat :=
  k.key.length + 1 + if k.isValue then versionTimestampSize else 0

/-- Where a timestamp stands among those of a key: the empty one first, then the newest. -/
def place (t : Timestamp) : WithBot Timestampᵒᵈ :=
  if t = {} then ⊥ else (OrderDual.toDual t : Timestampᵒᵈ)

theorem place_injective : Function.Injective place := by
  intro t s h
  unfold place at h
  by_cases ht : t = {}
  · by_cases hs : s = {}
    · rw [ht, hs]
    · rw [if_pos ht, if_neg hs] at h
      exact absurd h (WithBot.bot_ne_coe)
  · by_cases hs : s = {}
    · rw [if_neg ht, if_pos hs] at h
      exact absurd h (WithBot.coe_ne_bot)
    · rw [if_neg ht, if_neg hs] at h
      exact OrderDual.toDual.injective (WithBot.coe_injective h)

/-- Where a key stands among what is stored. -/
def rank (k : MVCCKey) : Lex (Key × WithBot Timestampᵒᵈ) := toLex (k.key, place k.timestamp)

theorem rank_injective : Function.Injective rank := by
  intro k l h
  have hp := toLex.injective h
  exact MVCCKey.ext (congrArg Prod.fst hp) (place_injective (congrArg Prod.snd hp))

instance : LinearOrder MVCCKey := LinearOrder.lift' rank rank_injective

variable {k l : MVCCKey}

theorem lt_iff_rank :
    k < l ↔ k.key < l.key ∨ k.key = l.key ∧ place k.timestamp < place l.timestamp := by
  show k.rank < l.rank ↔ _
  exact Prod.Lex.toLex_lt_toLex

/-- The order of keys is the one of `less`. -/
theorem lt_iff : k < l ↔ k.less l = true := by
  rw [lt_iff_rank]
  unfold less isValue place
  by_cases hkey : k.key = l.key
  · rw [if_neg (not_not.mpr hkey), hkey]
    simp only [lt_self_iff_false, false_or, true_and]
    by_cases hk : k.timestamp = {}
    · by_cases hl : l.timestamp = {}
      · simp [hk, hl, Timestamp.isEmpty]
      · simp [hk, hl, Timestamp.isEmpty]
    · by_cases hl : l.timestamp = {}
      · simp [hk, hl, Timestamp.isEmpty]
      · rw [if_neg hk, if_neg hl]
        simp only [Timestamp.isEmpty, hk, hl, decide_false, Bool.not_false, Bool.not_true,
          Bool.false_eq_true, if_false, decide_eq_true_eq]
        exact WithBot.coe_lt_coe.trans OrderDual.toDual_lt_toDual
  · rw [if_pos hkey, decide_eq_true_eq]
    exact ⟨fun h => h.resolve_right fun h' => hkey h'.1, .inl⟩

theorem key_le_of_le (h : k ≤ l) : k.key ≤ l.key := by
  by_contra hlt
  have : l < k := lt_iff_rank.mpr (.inl (not_le.mp hlt))
  exact absurd this (not_lt.mpr h)

/-- Of two versions of a key the one that comes later is older. -/
theorem lt_version_iff (hkey : k.key = l.key) (hk : k.isValue = true)
    (hl : l.isValue = true) : k < l ↔ l.timestamp < k.timestamp := by
  rw [lt_iff]
  unfold less
  simp [hkey, hk, hl]

end MVCCKey

end Cockroach.Storage
