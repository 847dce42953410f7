import Cockroach.Lib.Search
import Cockroach.Storage.MvccKey

/-!
# MVCC range keys (`mvcc_key.go`)

A stack of range tombstones: fragments over one span, from the newest to the oldest.
-/

namespace Cockroach.Storage

open Lib Hlc

/-- `MVCCRangeKeyVersion`. -/
structure MVCCRangeKeyVersion where
  timestamp : Timestamp
  value : List UInt8 := []
  deriving DecidableEq, Repr, Inhabited

/-- `MVCCRangeKeyVersions`. -/
abbrev MVCCRangeKeyVersions := List MVCCRangeKeyVersion

namespace MVCCRangeKeyVersions

/-- From the newest to the oldest. -/
abbrev Descending (v : MVCCRangeKeyVersions) : Prop :=
  v.Pairwise fun a b => b.timestamp < a.timestamp

/-- `MVCCRangeKeyVersions.FirstAtOrBelow`. -/
def firstAtOrBelow (v : MVCCRangeKeyVersions) (ts : Timestamp) : Option MVCCRangeKeyVersion :=
  v[searchList v fun a => decide (a.timestamp ≤ ts)]?

variable {v : MVCCRangeKeyVersions} {ts : Timestamp} {a b : MVCCRangeKeyVersion}

theorem firstAtOrBelow_eq_find? (hv : v.Descending) :
    firstAtOrBelow v ts = v.find? fun a => decide (a.timestamp ≤ ts) :=
  getElem?_searchList (hv.imp fun hlt h =>
    decide_eq_true (hlt.le.trans (of_decide_eq_true h)))

/-- The version found is the newest one at or below the timestamp. -/
theorem firstAtOrBelow_some (hv : v.Descending) (h : firstAtOrBelow v ts = some a) :
    a ∈ v ∧ a.timestamp ≤ ts ∧ ∀ b ∈ v, b.timestamp ≤ ts → b.timestamp ≤ a.timestamp := by
  rw [firstAtOrBelow_eq_find? hv] at h
  obtain ⟨hle, l₁, l₂, rfl, hfail⟩ := List.find?_eq_some_iff_append.mp h
  refine ⟨by simp, of_decide_eq_true hle, fun b hb hbts => ?_⟩
  rcases List.mem_append.mp hb with hb | hb
  · have := hfail b hb
    rw [decide_eq_true hbts] at this
    cases this
  · rcases List.mem_cons.mp hb with rfl | hb
    · exact le_rfl
    · exact ((List.pairwise_cons.mp (List.pairwise_append.mp hv).2.1).1 b hb).le

theorem firstAtOrBelow_none (hv : v.Descending) (h : firstAtOrBelow v ts = none) :
    ∀ b ∈ v, ts < b.timestamp := by
  rw [firstAtOrBelow_eq_find? hv, List.find?_eq_none] at h
  intro b hb
  exact not_le.mp fun hle => h b hb (decide_eq_true hle)

end MVCCRangeKeyVersions

/-- `MVCCRangeKeyStack`. -/
structure MVCCRangeKeyStack where
  startKey : Key
  endKey : Key
  versions : MVCCRangeKeyVersions
  newestFirst : versions.Descending
  deriving DecidableEq

namespace MVCCRangeKeyStack

/-- `Span.ContainsKey` of the bounds. -/
def containsKey (s : MVCCRangeKeyStack) (k : Key) : Prop := s.startKey ≤ k ∧ k < s.endKey

instance (s : MVCCRangeKeyStack) (k : Key) : Decidable (s.containsKey k) :=
  inferInstanceAs (Decidable (s.startKey ≤ k ∧ k < s.endKey))

end MVCCRangeKeyStack

end Cockroach.Storage
