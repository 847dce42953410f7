import Cockroach.Storage.RangeKeys

/-!
# The garbage collector's walk over a range (`gc_iterator.go`, `gc.go`)

`GcIterator` reads the positions of an `MVCCIterator` in reverse, from the oldest to the
newest version of each key and from the last key to the first, and looks two entries
ahead. The loop of `processReplicatedKeyRange` tells a batcher for each version whether
it is garbage (`isGarbage`); it is written for any batcher, so that the calls themselves
can be looked at (`calls`).

Left out are the check that only race builds make in `isGarbage`, and the fast path that
clears a range a tombstone covers.
-/

namespace Cockroach.Gc

open Lib Hlc Storage

/-- Why a collection stops early. -/
inductive Stop where
  /-- The error of the context, which a `GCer` returned. -/
  | canceled
  | iterator (err : String)
  | panic (msg : String)
  /-- The bound on the rounds of the loop; it is never reached (`loop_eq`). -/
  | rounds
  deriving DecidableEq, Repr

/-- `mvccKeyValue`. -/
structure MvccKeyValue where
  key : MVCCKey
  mvccValueLen : Nat := 0
  mvccValueIsTombstone : Bool := false
  metaValue : List UInt8 := []
  deriving DecidableEq, Repr, Inhabited

/-- A position of the `MVCCIterator`: the point key there, if any, and the range keys
over it. -/
structure Position where
  point : Option MvccKeyValue
  rangeKeys : Option MVCCRangeKeyStack

/-- `gcIterator`. The positions still to come are in `it`; when they run out the
iterator is not valid, with the error `itErr` if there is one. `buf` is the ring of
three entries, the front first. -/
structure GcIterator where
  it : List Position
  itErr : Option String := none
  threshold : Timestamp
  err : Option String := none
  buf : List (MvccKeyValue × Timestamp) := []
  cachedRangeTombstoneTS : Timestamp := {}
  cachedRangeTombstoneKey : Key := []

/-- `gcIteratorState`. -/
structure GcIteratorState where
  cur : MvccKeyValue
  next : Option MvccKeyValue
  afterNext : Option MvccKeyValue
  firstRangeTombstoneTsAtOrBelowGC : Timestamp

namespace GcIteratorState

/-- `gcIteratorState.curIsNewest`. -/
def curIsNewest (s : GcIteratorState) : Bool :=
  s.cur.key.isValue && (s.next.isNone || s.afterNext.any fun kv => !kv.key.isValue)

/-- `gcIteratorState.curLastKeyVersion`. -/
def curLastKeyVersion (s : GcIteratorState) : Bool := s.next.isNone

/-- `gcIteratorState.curIsNotValue`. -/
def curIsNotValue (s : GcIteratorState) : Bool := !s.cur.key.isValue

/-- `gcIteratorState.curIsIntent`. -/
def curIsIntent (s : GcIteratorState) : Bool := s.next.any fun kv => !kv.key.isValue

end GcIteratorState

namespace GcIterator

/-- `gcIterator.currentRangeTS`, at a position with the range keys `s`. -/
def currentRangeTS (it : GcIterator) (s : MVCCRangeKeyStack) : Timestamp × GcIterator :=
  if s.startKey = it.cachedRangeTombstoneKey then (it.cachedRangeTombstoneTS, it)
  else
    let ts := ((s.versions.firstAtOrBelow it.threshold).map (·.timestamp)).getD {}
    (ts, { it with cachedRangeTombstoneKey := s.startKey, cachedRangeTombstoneTS := ts })

/-- One round of `fillTo`: a point at the position goes to the back of the ring. -/
def read (it : GcIterator) (p : Position) : GcIterator :=
  match p.point with
  | none => it
  | some kv =>
    match p.rangeKeys with
    | none => { it with buf := it.buf ++ [(kv, {})] }
    | some s =>
      let (ts, it) := it.currentRangeTS s
      { it with buf := it.buf ++ [(kv, ts)] }

/-- `gcIterator.fillTo`, over the positions that are left. -/
def fillFrom (targetLen : Nat) : List Position → GcIterator → Bool × GcIterator
  | [], it =>
    if targetLen ≤ it.buf.length then (true, { it with it := [] })
    else (false, { it with it := [], err := it.itErr })
  | p :: ps, it =>
    if targetLen ≤ it.buf.length then (true, { it with it := p :: ps })
    else fillFrom targetLen ps (it.read p)

/-- `gcIterator.fillTo`. -/
def fillTo (it : GcIterator) (targetLen : Nat) : Bool × GcIterator :=
  fillFrom targetLen it.it it

/-- `gcIterator.peekAt`. -/
def peekAt (it : GcIterator) (i : Nat) : Option (MvccKeyValue × Timestamp) × GcIterator :=
  if it.buf.length ≤ i then
    match it.fillTo (i + 1) with
    | (true, it) => (it.buf[i]?, it)
    | (false, it) => (none, it)
  else (it.buf[i]?, it)

/-- `gcIterator.state`. -/
def state (it : GcIterator) : Option GcIteratorState × GcIterator :=
  match it.peekAt 0 with
  | (none, it) => (none, it)
  | (some (cur, ts), it) =>
    match it.peekAt 1 with
    | (none, it) => (if it.err.isSome then none else some ⟨cur, none, none, ts⟩, it)
    | (some (next, _), it) =>
      if next.key.key ≠ cur.key.key then (some ⟨cur, none, none, ts⟩, it)
      else
        match it.peekAt 2 with
        | (none, it) => (if it.err.isSome then none else some ⟨cur, next, none, ts⟩, it)
        | (some (afterNext, _), it) =>
          if afterNext.key.key ≠ cur.key.key then (some ⟨cur, next, none, ts⟩, it)
          else (some ⟨cur, next, afterNext, ts⟩, it)

/-- `gcIterator.step`, that is `gcIteratorRingBuf.removeFront`. -/
def step (it : GcIterator) : Except Stop GcIterator :=
  match it.buf with
  | [] => .error (.panic "cannot remove from empty gcIteratorRingBuf")
  | _ :: buf => .ok { it with buf }

end GcIterator

/-- `isGarbage`. -/
def isGarbage (threshold : Timestamp) (cur : MvccKeyValue) (next : Option MvccKeyValue)
    (isNewestPoint : Bool) (firstRangeTombstoneTsAtOrBelowGC : Timestamp) : Except Stop Bool :=
  if ¬ cur.key.timestamp ≤ threshold then .ok false
  else if cur.key.timestamp < firstRangeTombstoneTsAtOrBelowGC then .ok true
  else
    let isDelete := cur.mvccValueIsTombstone
    if isNewestPoint && !isDelete then .ok false
    else
      match next with
      | none => if isDelete then .ok true else .error (.panic "huh")
      | some next => .ok (isDelete || decide (next.key.timestamp ≤ threshold))

/-- A call of `foundGarbage` (when `garbage`) or `foundNonGCableData`. -/
structure Call where
  cur : MvccKeyValue
  garbage : Bool
  isNewestPoint : Bool
  deriving DecidableEq, Repr

/-- The `switch` of the loop of `processReplicatedKeyRange`. -/
def GcIteratorState.call (s : GcIteratorState) (threshold : Timestamp) : Except Stop Call :=
  if s.curIsNotValue then .ok ⟨s.cur, false, true⟩
  else if s.curIsIntent then .ok ⟨s.cur, false, true⟩
  else do
    let garbage ← isGarbage threshold s.cur s.next s.curIsNewest s.firstRangeTombstoneTsAtOrBelowGC
    return ⟨s.cur, garbage, s.curLastKeyVersion⟩

section Loop

variable {σ ε : Type} (found : σ → Call → Except ε σ) (stop : σ → Stop → ε)

/-- The loop of `processReplicatedKeyRange`, for at most the given number of rounds, with
any batcher of type `σ`. -/
def loop : Nat → GcIterator → σ → Except ε σ
  | 0, _, b => .error (stop b .rounds)
  | n + 1, it, b =>
    match it.state with
    | (none, it) =>
      match it.err with
      | some e => .error (stop b (.iterator e))
      | none => .ok b
    | (some s, it) => do
        let c ← (s.call it.threshold).mapError (stop b)
        let b ← found b c
        let it ← it.step.mapError (stop b)
        -- The metadata of an intent is stepped over as well.
        let it ← if !s.curIsNotValue && s.curIsIntent then it.step.mapError (stop b) else .ok it
        loop n it b

end Loop

/-- The calls that the loop makes over the given positions. -/
def calls (threshold : Timestamp) (ps : List Position) : Except Stop (List Call) :=
  loop (fun cs c => .ok (cs ++ [c])) (fun _ e => e) (ps.length + 1) { it := ps, threshold } []

end Cockroach.Gc
