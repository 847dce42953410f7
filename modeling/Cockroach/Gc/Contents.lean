import Cockroach.Gc.Iterator

/-!
# The contents of a range, and what reads see of it

The versions of each key, its intent or inline value, and the stacks of range tombstones.
An intent has a future: it is aborted, committed in place, or pushed to a higher timestamp
and committed there. A read at a timestamp sees the newest committed version at or below
it, unless a range tombstone at or below the timestamp lies over that version.
-/

namespace Cockroach.Gc

open Lib Hlc Storage

/-- A version of a key: a value, or none for a tombstone. -/
structure Version where
  timestamp : Timestamp
  value : Option (List UInt8)
  mvccValueLen : Nat := 0
  deriving DecidableEq, Repr

/-- What is stored at a key: versions from the newest to the oldest and, without a
timestamp, metadata. Metadata over versions is that of an intent, whose provisional value
is the newest version; metadata alone is an inline value. -/
structure Stored where
  metaValue : Option (List UInt8) := none
  versions : List Version := []
  deriving DecidableEq, Repr

/-- Versions have distinct timestamps that are not empty. -/
structure Stored.Valid (s : Stored) : Prop where
  descending : s.versions.Pairwise fun v w => w.timestamp < v.timestamp
  stamped : ∀ v ∈ s.versions, v.timestamp ≠ {}

/-- The contents of a range. MVCC enforces that no version has the timestamp of a range
tombstone over it. -/
structure RangeContents where
  keys : List (Key × Stored)
  rangeTombstones : List MVCCRangeKeyStack
  sorted : keys.Pairwise fun p q => p.1 < q.1
  valid : ∀ p ∈ keys, p.2.Valid
  fragments : rangeTombstones.Pairwise fun s t => s.endKey ≤ t.startKey
  bounds : ∀ s ∈ rangeTombstones, s.startKey ≠ [] ∧ s.startKey < s.endKey
  distinct : ∀ p ∈ keys, ∀ s ∈ rangeTombstones, s.containsKey p.1 →
    ∀ v ∈ p.2.versions, ∀ r ∈ s.versions, r.timestamp ≠ v.timestamp

/-! ## Reads -/

/-- What becomes of an intent. -/
inductive Future where
  | pending
  | aborted
  | committed
  | pushed (timestamp : Timestamp)
  deriving DecidableEq, Repr

/-- The committed versions of a key, the newest first. -/
def Stored.committed (s : Stored) (f : Future) : List Version :=
  match s.metaValue, s.versions with
  | some _, p :: vs =>
    match f with
    | .pending => vs
    | .aborted => vs
    | .committed => p :: vs
    | .pushed ts => { p with timestamp := ts } :: vs
  | _, vs => vs

/-- The newest of some versions at or below `ts`, if no range tombstone at or below `ts` lies
over it. -/
def findVersion (tombstones : List Timestamp) (ts : Timestamp) (vs : List Version) :
    Option Version :=
  (vs.find? fun v => decide (v.timestamp ≤ ts)).filter fun v =>
    tombstones.all fun r => decide (r < v.timestamp ∨ ts < r)

/-- The version that a read at `ts` finds, under the given range tombstones. -/
def Stored.find (s : Stored) (f : Future) (tombstones : List Timestamp) (ts : Timestamp) :
    Option Version :=
  findVersion tombstones ts (s.committed f)

/-- The value that a read at `ts` returns. -/
def Stored.read (s : Stored) (f : Future) (tombstones : List Timestamp) (ts : Timestamp) :
    Option (List UInt8) :=
  match s.metaValue, s.versions with
  | some value, [] => some value
  | _, _ => (s.find f tombstones ts).bind (·.value)

namespace RangeContents

variable (c : RangeContents)

/-- What is stored at a key. -/
def stored (k : Key) : Stored := ((c.keys.find? fun p => p.1 = k).map (·.2)).getD {}

/-- The range tombstones over a key. -/
def stackOver (k : Key) : Option MVCCRangeKeyStack :=
  c.rangeTombstones.find? fun s => decide (s.containsKey k)

/-- The timestamps of the range tombstones over a key. -/
def tombstones (k : Key) : List Timestamp :=
  ((c.stackOver k).map fun s => s.versions.map (·.timestamp)).getD []

/-- The value of a key that a read at `ts` returns, when the intents go the way of `f`. -/
def read (f : Key → Future) (k : Key) (ts : Timestamp) : Option (List UInt8) :=
  (c.stored k).read (f k) (c.tombstones k) ts

end RangeContents

/-! ## Removing versions -/

/-- The versions that are not in `g` stay. -/
def Stored.remove (s : Stored) (g : Version → Bool) : Stored :=
  { s with versions := s.versions.filter fun v => !g v }

theorem Stored.Valid.remove {s : Stored} (h : s.Valid) (g : Version → Bool) :
    (s.remove g).Valid where
  descending := h.descending.sublist List.filter_sublist
  stamped := fun v hv => h.stamped v (List.mem_of_mem_filter hv)

/-- The contents without the versions in `g`. -/
def RangeContents.remove (c : RangeContents) (g : MVCCKey → Bool) : RangeContents where
  keys := c.keys.map fun p => (p.1, p.2.remove fun v => g ⟨p.1, v.timestamp⟩)
  rangeTombstones := c.rangeTombstones
  sorted := List.pairwise_map.mpr c.sorted
  valid := by
    intro p hp
    obtain ⟨q, hq, rfl⟩ := List.mem_map.mp hp
    exact (c.valid q hq).remove _
  fragments := c.fragments
  bounds := c.bounds
  distinct := by
    intro p hp s hs hk v hv
    obtain ⟨q, hq, rfl⟩ := List.mem_map.mp hp
    exact c.distinct q hq s hs hk v (List.mem_of_mem_filter hv)

theorem RangeContents.stored_remove (c : RangeContents) (g : MVCCKey → Bool) (k : Key) :
    (c.remove g).stored k = (c.stored k).remove fun v => g ⟨k, v.timestamp⟩ := by
  unfold stored RangeContents.remove
  rw [List.find?_map]
  show Option.getD (Option.map _ (Option.map _ (c.keys.find? fun p => p.1 = k))) _ = _
  cases hf : c.keys.find? fun p => p.1 = k with
  | none => rfl
  | some p =>
    have hk : p.1 = k := of_decide_eq_true (List.find?_eq_some_iff_append.mp hf).1
    show p.2.remove _ = p.2.remove _
    rw [hk]

/-! ## What the iterator lists -/

/-- The entry of a version. -/
def Version.entry (v : Version) (k : Key) : MvccKeyValue where
  key := ⟨k, v.timestamp⟩
  mvccValueLen := v.mvccValueLen
  mvccValueIsTombstone := v.value.isNone

/-- The entry of metadata. -/
def metaEntry (k : Key) (value : List UInt8) : MvccKeyValue where
  key := ⟨k, {}⟩
  metaValue := value

/-- The entries of a key, from the last to the first. -/
def Stored.entries (s : Stored) (k : Key) : List MvccKeyValue :=
  s.versions.reverse.map (·.entry k) ++ s.metaValue.toList.map (metaEntry k)

/-- The entries of a range, from the last to the first. -/
def RangeContents.entries (c : RangeContents) : List MvccKeyValue :=
  c.keys.reverse.flatMap fun p => p.2.entries p.1

/-- A reverse iteration over points and range keys: the points are the entries of the
range, each under the range tombstones over its key. Positions without a point may come
anywhere. -/
structure Listing (c : RangeContents) (ps : List Position) : Prop where
  points : ps.filterMap (·.point) = c.entries
  ranges : ∀ p ∈ ps, ∀ kv ∈ p.point, p.rangeKeys = c.stackOver kv.key.key

end Cockroach.Gc
