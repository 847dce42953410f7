import Cockroach.Util.Hlc

/-!
# Concurrent calls on hybrid logical clocks (`hlc.go`)

Any number of calls of `NowAsClockTimestamp`, `Update` and `UpdateAndCheckMaxOffset` run on any
number of clocks, one memory access or one critical step at a time. The wall time is stored
before the logical one, so that the fast path of `Update`, which takes no lock, can see a wall
time whose logical part is not written yet. The logical counter does not overflow.

* `Run.Reachable.inv`: what the calls that have returned left behind is at or below the clock,
  and strictly below its wall time while a store is half done.
* `causality`: a reading is above everything that had been left on its clock when its call
  began, so readings grow along every chain of messages; and a wall time is a physical reading
  that some clock took.
-/

namespace Cockroach.Hlc

open List Function Timestamp

/-! ## One call -/

/-- What the calls on one clock share: `hlc.Clock`. -/
structure Memory where
  timestamp : Timestamp := {}
  lastPhysicalTime : Int := 0
  /-- the call that holds the mutex -/
  holder : Option Nat := none
  maxOffset : Nat := 0
  forwardClockJumpCheckEnabled : Bool := false
  wallTimeUpperBound : Nat := 0
  deriving DecidableEq, Repr

/-- What is called on a clock. -/
inductive Op where
  | now
  | update (rt : Timestamp)
  | updateAndCheckMaxOffset (rt : Timestamp)
  deriving DecidableEq, Repr

/-- The timestamp that is passed to an update. -/
def Op.rt? : Op → Option Timestamp
  | .now => none
  | .update rt | .updateAndCheckMaxOffset rt => some rt

/-- How a call returns. -/
inductive Outcome where
  | reading (ts : Timestamp)
  | updated
  /-- `errUntrustworthyRemoteWallTimeErr` -/
  | untrustworthy
  deriving DecidableEq, Repr

/-- Where a call is, with its local variables. -/
inductive Pc where
  -- `getPhysicalClockAndCheck`
  | loadLast
  | readClock (oldTime : Int)
  | swapLast (oldTime lastPhysTime newTime : Int)
  | reloadLast (oldTime newTime : Int)
  | checkClock (oldTime newTime : Int)
  -- `NowAsClockTimestamp`
  | nowLock (physicalClock : Int)
  | nowTick (physicalClock : Int)
  | nowReset
  | nowEnforce
  | nowUnlock (ts : Timestamp)
  -- `UpdateAndCheckMaxOffset`
  | checkOffset (rt : Timestamp) (physicalClock : Int)
  -- `Update`
  | fastPath (rt : Timestamp)
  | updateLock (rt : Timestamp)
  | updateMerge (rt : Timestamp)
  | updateLogical (rt : Timestamp)
  | updateEnforce
  | updateUnlock
  | done (outcome : Outcome)
  /-- `log.Fatalf` -/
  | crashed
  deriving DecidableEq, Repr

/-- Whether the call is between `Lock` and `Unlock`. -/
def Pc.holds : Pc → Bool
  | .nowTick _ | .nowReset | .nowEnforce | .nowUnlock _ => true
  | .updateMerge _ | .updateLogical _ | .updateEnforce | .updateUnlock => true
  | _ => false

/-- Whether the call has returned. -/
def Pc.returned : Pc → Bool
  | .done _ => true
  | _ => false

/-- Where a call begins. -/
def Op.start : Op → Pc
  | .now | .updateAndCheckMaxOffset _ => .loadLast
  | .update rt => .fastPath rt

/-- Where a call goes on with a physical reading. -/
def Op.afterReading (physicalClock : Int) : Op → Pc
  | .now => .nowLock physicalClock
  | .update rt => .fastPath rt
  | .updateAndCheckMaxOffset rt => .checkOffset rt physicalClock

/-- `checkPhysicalClock`, as far as it is fatal; `toleratedForwardClockJump` is half of the
maximal offset. -/
def Memory.jumpedForward (m : Memory) (oldTime newTime : Int) : Bool :=
  oldTime ≠ 0 && m.forwardClockJumpCheckEnabled &&
    ((m.maxOffset / 2 : Nat) : Int) ≤ newTime - oldTime

/-- `enforceWallTimeWithinBoundLocked`, as far as it is fatal. -/
def Memory.beyondBound (m : Memory) : Bool :=
  m.wallTimeUpperBound ≠ 0 && m.wallTimeUpperBound < m.timestamp.wallTime

/-- The next step of a call; a call that cannot take the lock has none. `reading` is what the
physical clock shows, for the step that looks at it. -/
def next (id : Nat) (op : Op) (reading : Int) (m : Memory) : Pc → Option (Memory × Pc)
  | .loadLast => some (m, .readClock m.lastPhysicalTime)
  | .readClock oldTime => some (m, .swapLast oldTime oldTime reading)
  | .swapLast oldTime lastPhysTime newTime =>
    if m.lastPhysicalTime = lastPhysTime then
      some ({ m with lastPhysicalTime := newTime }, .checkClock oldTime newTime)
    else some (m, .reloadLast oldTime newTime)
  | .reloadLast oldTime newTime =>
    if newTime ≤ m.lastPhysicalTime then some (m, .checkClock oldTime newTime)
    else some (m, .swapLast oldTime m.lastPhysicalTime newTime)
  | .checkClock oldTime newTime =>
    if m.jumpedForward oldTime newTime then some (m, .crashed)
    else some (m, op.afterReading newTime)
  | .nowLock physicalClock =>
    if m.holder = none then some ({ m with holder := some id }, .nowTick physicalClock) else none
  | .nowTick physicalClock =>
    if physicalClock ≤ m.timestamp.wallTime then
      some ({ m with timestamp := { m.timestamp with logical := m.timestamp.logical + 1 } },
        .nowEnforce)
    else
      some ({ m with timestamp := { m.timestamp with wallTime := physicalClock.toNat } },
        .nowReset)
  | .nowReset =>
    some ({ m with timestamp := { m.timestamp with logical := 0 } }, .nowEnforce)
  | .nowEnforce => some (m, if m.beyondBound then .crashed else .nowUnlock m.timestamp)
  | .nowUnlock ts => some ({ m with holder := none }, .done (.reading ts))
  | .checkOffset rt physicalClock =>
    if 0 < m.maxOffset ∧ (m.maxOffset : Int) < rt.wallTime - physicalClock then
      some (m, .done .untrustworthy)
    else if (rt.wallTime : Int) < physicalClock then
      some (m, .fastPath { wallTime := physicalClock.toNat })
    else some (m, .fastPath rt)
  | .fastPath rt =>
    some (m, if rt.wallTime < m.timestamp.wallTime then .done .updated else .updateLock rt)
  | .updateLock rt =>
    if m.holder = none then some ({ m with holder := some id }, .updateMerge rt) else none
  | .updateMerge rt =>
    if m.timestamp.wallTime < rt.wallTime then
      some ({ m with timestamp := { m.timestamp with wallTime := rt.wallTime } },
        .updateLogical rt)
    else if rt.wallTime = m.timestamp.wallTime ∧ m.timestamp.logical < rt.logical then
      some ({ m with timestamp := { m.timestamp with logical := rt.logical } }, .updateEnforce)
    else some (m, .updateEnforce)
  | .updateLogical rt =>
    some ({ m with timestamp := { m.timestamp with logical := rt.logical } }, .updateEnforce)
  | .updateEnforce => some (m, if m.beyondBound then .crashed else .updateUnlock)
  | .updateUnlock => some ({ m with holder := none }, .done .updated)
  | .done _ | .crashed => none

/-! ## Runs -/

/-- A call on a clock. -/
structure Call where
  clock : Nat
  op : Op
  pc : Pc
  /-- the calls that had returned when this one began -/
  after : List Nat
  deriving DecidableEq, Repr

/-- What a call leaves behind when it returns: its reading, or the timestamp of its update. -/
def Call.leaves (c : Call) : Option Timestamp :=
  match c.pc with
  | .done (.reading ts) => some ts
  | .done .updated => c.op.rt?
  | _ => none

/-- Clocks and the calls made on them so far. -/
structure Run where
  memory : Nat → Memory := fun _ => {}
  calls : Nat → Option Call := fun _ => none
  /-- the calls that have returned -/
  returned : List Nat := []
  /-- the physical readings that were taken -/
  readings : List Int := []

namespace Run

/-- Call `a` has returned from clock `c` and left `t` there. -/
def Left (r : Run) (c a : Nat) (t : Timestamp) : Prop :=
  ∃ call, r.calls a = some call ∧ call.clock = c ∧ call.leaves = some t

/-- The reading that a call has returned. -/
def Reads (r : Run) (a : Nat) (t : Timestamp) : Prop :=
  ∃ call, r.calls a = some call ∧ call.pc = .done (.reading t)

/-- The run after a call has begun. -/
def started (r : Run) (id c : Nat) (op : Op) : Run :=
  { r with
    calls := Function.update r.calls id
      (some { clock := c, op, pc := op.start, after := r.returned }) }

/-- The run after call `id` has made a step. -/
def moved (r : Run) (id : Nat) (call : Call) (reading : Int) (m : Memory) (pc : Pc) : Run where
  memory := Function.update r.memory call.clock m
  calls := Function.update r.calls id (some { call with pc })
  returned := if pc.returned then id :: r.returned else r.returned
  readings := match call.pc with
    | .readClock _ => reading :: r.readings
    | _ => r.readings

/-- One step of a run. -/
inductive Step (r : Run) : Run → Prop
  /-- a call begins; a timestamp that is passed to an update was returned by some clock -/
  | start {id c : Nat} {op : Op} (hfresh : r.calls id = none)
      (hrt : ∀ rt, op.rt? = some rt → ∃ a, r.Reads a rt) :
      Step r (r.started id c op)
  | run {id : Nat} {call : Call} {reading : Int} {m : Memory} {pc : Pc}
      (hcall : r.calls id = some call)
      (hnext : next id call.op reading (r.memory call.clock) call.pc = some (m, pc)) :
      Step r (r.moved id call reading m pc)
  /-- the checks of a clock are configured -/
  | configure {c maxOffset wallTimeUpperBound : Nat} {forwardClockJumpCheckEnabled : Bool} :
      Step r { r with
        memory := Function.update r.memory c
          { r.memory c with maxOffset, forwardClockJumpCheckEnabled, wallTimeUpperBound } }

/-- The runs of clocks that start at zero. -/
inductive Reachable : Run → Prop
  | init {maxOffset : Nat → Nat} :
      Reachable { memory := fun c => { maxOffset := maxOffset c } }
  | step {r r' : Run} : Reachable r → Step r r' → Reachable r'

/-- One reading happens before another: on one clock, by a message that updated the clock, or
through a chain of these. -/
inductive HappensBefore (r : Run) : Nat → Nat → Prop
  | sameClock {a b : Nat} {ca cb : Call} {t t' : Timestamp} (ha : r.calls a = some ca)
      (hb : r.calls b = some cb) (hra : ca.pc = .done (.reading t))
      (hrb : cb.pc = .done (.reading t')) (hclock : ca.clock = cb.clock)
      (hafter : a ∈ cb.after) : HappensBefore r a b
  | message {a u b : Nat} {cu cb : Call} {t t' : Timestamp} (ha : r.Reads a t)
      (hu : r.calls u = some cu) (hb : r.calls b = some cb) (hrt : cu.op.rt? = some t)
      (hupdated : cu.pc = .done .updated) (hrb : cb.pc = .done (.reading t'))
      (hclock : cu.clock = cb.clock) (hafter : u ∈ cb.after) : HappensBefore r a b
  | trans {a b c : Nat} : HappensBefore r a b → HappensBefore r b c → HappensBefore r a c

end Run

/-! ## What one step does -/

/-- Between the store of the wall time and that of the logical time. -/
def Pc.torn : Pc → Bool
  | .nowReset | .updateLogical _ => true
  | _ => false

/-- What a call knows where it is. `left a t` says that call `a` has left `t` on the clock. -/
def Local (left : Nat → Timestamp → Prop) (m : Memory) (call : Call) : Prop :=
  match call.pc with
  | .checkOffset rt' _ | .fastPath rt' | .updateLock rt' | .updateMerge rt' =>
    ∀ rt, call.op.rt? = some rt → rt ≤ rt'
  | .updateLogical rt' =>
    (∀ rt, call.op.rt? = some rt → rt ≤ rt') ∧ m.timestamp.wallTime = rt'.wallTime ∧
      ∀ a t, left a t → t.wallTime < m.timestamp.wallTime
  | .updateEnforce | .updateUnlock => ∀ rt, call.op.rt? = some rt → rt ≤ m.timestamp
  | .nowReset => ∀ a t, left a t → t.wallTime < m.timestamp.wallTime
  | .nowEnforce => ∀ a ∈ call.after, ∀ t, left a t → t < m.timestamp
  | .nowUnlock ts => ts = m.timestamp ∧ ∀ a ∈ call.after, ∀ t, left a t → t < ts
  | .done (.reading ts) => ∀ a ∈ call.after, ∀ t, left a t → t < ts
  | _ => True

variable {m m' : Memory}

/-- What a call knows does not depend on what others do: a clock moves only under the lock, and
what is left without the lock is below the wall time. -/
theorem Local.mono {left left' : Nat → Timestamp → Prop} {call : Call}
    (h : Local left m call) (hafter : ∀ a ∈ call.after, ∀ t, left' a t → left a t)
    (htorn : call.pc.torn = true → ∀ a t, left' a t → left a t ∨
      t.wallTime < m.timestamp.wallTime)
    (hheld : call.pc.holds = true → m'.timestamp = m.timestamp) : Local left' m' call := by
  unfold Local at h ⊢
  cases hpc : call.pc with
  | nowReset =>
    rw [hpc] at h htorn hheld
    intro a t hl
    rw [hheld rfl]
    exact (htorn rfl a t hl).elim (h a t) id
  | updateLogical rt' =>
    rw [hpc] at h htorn hheld
    show _ ∧ _ ∧ _
    rw [hheld rfl]
    exact ⟨h.1, h.2.1, fun a t hl => (htorn rfl a t hl).elim (h.2.2 a t) id⟩
  | nowEnforce =>
    rw [hpc] at h hheld
    intro a ha t hl
    rw [hheld rfl]
    exact h a ha t (hafter a ha t hl)
  | nowUnlock ts =>
    rw [hpc] at h hheld
    exact ⟨h.1.trans (hheld rfl).symm ▸ rfl, fun a ha t hl => h.2 a ha t (hafter a ha t hl)⟩
  | done o =>
    cases o with
    | reading ts =>
      rw [hpc] at h
      exact fun a ha t hl => h a ha t (hafter a ha t hl)
    | updated => trivial
    | untrustworthy => trivial
  | updateEnforce | updateUnlock =>
    rw [hpc] at h hheld
    intro rt hrt
    rw [hheld rfl]
    exact h rt hrt
  | _ =>
    rw [hpc] at h
    exact h

/-- What a step does to the lock and when it may move the clock. -/
structure Moves (id : Nat) (m : Memory) (pc : Pc) (m' : Memory) (pc' : Pc) : Prop where
  running : pc.returned = false
  timestamp : pc.holds = false → m'.timestamp = m.timestamp
  lock : (m'.holder = m.holder ∧ (pc'.holds = true → pc.holds = true)) ∨
    (m.holder = none ∧ m'.holder = some id) ∨ (pc.holds = true ∧ pc'.holds = false)

theorem Op.holds_afterReading (op : Op) (p : Int) : (op.afterReading p).holds = false := by
  cases op <;> rfl

theorem next_moves {id : Nat} {op : Op} {reading : Int} {pc pc' : Pc}
    (h : next id op reading m pc = some (m', pc')) : Moves id m pc m' pc' := by
  unfold next at h
  cases pc with
  | loadLast | readClock =>
    cases h
    exact ⟨rfl, fun _ => rfl, .inl ⟨rfl, nofun⟩⟩
  | nowEnforce | updateEnforce =>
    cases h
    exact ⟨rfl, fun _ => rfl, .inl ⟨rfl, fun _ => rfl⟩⟩
  | fastPath rt =>
    cases h
    refine ⟨rfl, fun _ => rfl, .inl ⟨rfl, fun hc => ?_⟩⟩
    split at hc <;> cases hc
  | swapLast | reloadLast =>
    dsimp only at h
    split at h <;> cases h <;>
      exact ⟨rfl, fun _ => rfl, .inl ⟨rfl, nofun⟩⟩
  | checkClock oldTime newTime =>
    dsimp only at h
    split at h <;> cases h
    · exact ⟨rfl, fun _ => rfl, .inl ⟨rfl, nofun⟩⟩
    · refine ⟨rfl, fun _ => rfl, .inl ⟨rfl, fun hc => ?_⟩⟩
      rw [op.holds_afterReading] at hc
      cases hc
  | nowLock | updateLock =>
    dsimp only at h
    split at h
    · rename_i hfree
      cases h
      exact ⟨rfl, fun _ => rfl, .inr (.inl ⟨hfree, rfl⟩)⟩
    · cases h
  | nowTick p =>
    dsimp only at h
    split at h <;> cases h <;>
      exact ⟨rfl, nofun, .inl ⟨rfl, fun _ => rfl⟩⟩
  | updateMerge rt =>
    dsimp only at h
    split at h
    · cases h
      exact ⟨rfl, nofun, .inl ⟨rfl, fun _ => rfl⟩⟩
    · split at h <;> cases h <;>
        exact ⟨rfl, nofun, .inl ⟨rfl, fun _ => rfl⟩⟩
  | nowReset | updateLogical =>
    cases h
    exact ⟨rfl, nofun, .inl ⟨rfl, fun _ => rfl⟩⟩
  | nowUnlock | updateUnlock =>
    cases h
    exact ⟨rfl, fun _ => rfl, .inr (.inr ⟨rfl, rfl⟩)⟩
  | checkOffset rt p =>
    dsimp only at h
    split at h
    · cases h
      exact ⟨rfl, fun _ => rfl, .inl ⟨rfl, nofun⟩⟩
    · split at h <;> cases h <;>
        exact ⟨rfl, fun _ => rfl, .inl ⟨rfl, nofun⟩⟩
  | done | crashed => cases h

/-- A step of a call: what it knows then, that the clock stays above what was left on it, and
that what it leaves itself is at or below the clock, and below its wall time if it has not
taken the lock. -/
theorem Local.next {left : Nat → Timestamp → Prop} {id : Nat} {call : Call} {reading : Int}
    {pc' : Pc} (hlocal : Local left m call)
    (hbelow : ∀ a t, left a t → t ≤ m.timestamp)
    (h : next id call.op reading m call.pc = some (m', pc')) :
    Local left m' { call with pc := pc' } ∧ (∀ a t, left a t → t ≤ m'.timestamp) ∧
      ∀ t, ({ call with pc := pc' } : Call).leaves = some t → t ≤ m'.timestamp ∧
        (call.pc.holds = false → t.wallTime < m.timestamp.wallTime) := by
  have hnone : ∀ {P : Prop} {t : Timestamp}, none = some t → P := fun h => by cases h
  obtain ⟨c, op, pc, after⟩ := call
  unfold Cockroach.Hlc.next at h
  unfold Local at hlocal
  cases pc with
  | loadLast | readClock =>
    cases h
    exact ⟨trivial, hbelow, fun _ => hnone⟩
  | swapLast | reloadLast =>
    dsimp only at h
    split at h <;> cases h <;> exact ⟨trivial, hbelow, fun _ => hnone⟩
  | checkClock oldTime newTime =>
    dsimp only at h
    split at h <;> cases h
    · exact ⟨trivial, hbelow, fun _ => hnone⟩
    · cases op with
      | now => exact ⟨trivial, hbelow, fun _ => hnone⟩
      | update | updateAndCheckMaxOffset =>
        exact ⟨fun rt' h' => (Option.some.inj h').ge, hbelow, fun _ => hnone⟩
  | nowLock p =>
    dsimp only at h
    split at h
    · cases h
      exact ⟨trivial, hbelow, fun _ => hnone⟩
    · cases h
  | nowTick p =>
    dsimp only at h
    split at h
    · cases h
      have hlt : ∀ a t, left a t →
          t < { m.timestamp with logical := m.timestamp.logical + 1 } := by
        intro a t hl
        have hle := hbelow a t hl
        rw [le_def] at hle
        rw [lt_def]
        show t.wallTime < m.timestamp.wallTime ∨
          t.wallTime = m.timestamp.wallTime ∧ t.logical < m.timestamp.logical + 1
        omega
      exact ⟨fun a _ t hl => hlt a t hl, fun a t hl => (hlt a t hl).le, fun _ => hnone⟩
    · -- the wall time is stored: everything left before has a smaller one
      rename_i hp
      cases h
      have hlt : ∀ a t, left a t → t.wallTime < p.toNat := by
        intro a t hl
        have hle := hbelow a t hl
        rw [le_def] at hle
        omega
      exact ⟨hlt, fun a t hl => .inl (hlt a t hl), fun _ => hnone⟩
  | nowReset =>
    cases h
    exact ⟨fun a _ t hl => .inl (hlocal a t hl), fun a t hl => .inl (hlocal a t hl),
      fun _ => hnone⟩
  | nowEnforce =>
    cases h
    refine ⟨?_, hbelow, fun t ht => ?_⟩
    · split
      · trivial
      · exact ⟨rfl, hlocal⟩
    · split at ht <;> cases ht
  | nowUnlock ts =>
    cases h
    refine ⟨hlocal.2, hbelow, fun t ht => ⟨?_, nofun⟩⟩
    cases ht
    exact hlocal.1.le
  | checkOffset rt p =>
    dsimp only at h
    split at h
    · cases h
      exact ⟨trivial, hbelow, fun _ => hnone⟩
    · split at h <;> cases h
      · rename_i hp
        refine ⟨fun rt' hrt => (hlocal rt' hrt).trans (.inl ?_), hbelow, fun _ => hnone⟩
        show rt.wallTime < p.toNat
        omega
      · exact ⟨hlocal, hbelow, fun _ => hnone⟩
  | fastPath rt =>
    cases h
    split
    · rename_i hfast
      refine ⟨trivial, hbelow, fun t ht => ?_⟩
      have hle := hlocal t ht
      rw [le_def] at hle
      have hlt : t.wallTime < m.timestamp.wallTime := by omega
      exact ⟨.inl hlt, fun _ => hlt⟩
    · exact ⟨hlocal, hbelow, fun _ => hnone⟩
  | updateLock rt =>
    dsimp only at h
    split at h
    · cases h
      exact ⟨hlocal, hbelow, fun _ => hnone⟩
    · cases h
  | updateMerge rt =>
    dsimp only at h
    split at h
    · rename_i hahead
      cases h
      have hlt : ∀ a t, left a t → t.wallTime < rt.wallTime := by
        intro a t hl
        have hle := hbelow a t hl
        rw [le_def] at hle
        omega
      exact ⟨⟨hlocal, rfl, hlt⟩, fun a t hl => .inl (hlt a t hl), fun _ => hnone⟩
    · rename_i hahead
      split at h
      · rename_i heq
        cases h
        refine ⟨fun rt' hrt => (hlocal rt' hrt).trans (.inr ⟨heq.1, le_rfl⟩), fun a t hl => ?_,
          fun _ => hnone⟩
        exact (hbelow a t hl).trans (.inr ⟨rfl, heq.2.le⟩)
      · rename_i hne
        cases h
        refine ⟨fun rt' hrt => (hlocal rt' hrt).trans ?_, hbelow, fun _ => hnone⟩
        rw [le_def]
        omega
  | updateLogical rt =>
    cases h
    obtain ⟨hrt, hwall, hlt⟩ := hlocal
    exact ⟨fun rt' h' => (hrt rt' h').trans (.inr ⟨hwall.symm, le_rfl⟩),
      fun a t hl => .inl (hlt a t hl), fun _ => hnone⟩
  | updateEnforce =>
    cases h
    refine ⟨?_, hbelow, fun t ht => ?_⟩
    · split
      · trivial
      · exact hlocal
    · split at ht <;> cases ht
  | updateUnlock =>
    cases h
    exact ⟨trivial, hbelow, fun t ht => ⟨hlocal t ht, nofun⟩⟩
  | done | crashed => cases h

/-- The wall times that a call carries with it. -/
def Pc.walls : Pc → List Nat
  | .swapLast _ _ p | .reloadLast _ p | .checkClock _ p | .nowLock p | .nowTick p => [p.toNat]
  | .checkOffset rt p => [rt.wallTime, p.toNat]
  | .fastPath rt | .updateLock rt | .updateMerge rt | .updateLogical rt => [rt.wallTime]
  | .nowUnlock ts | .done (.reading ts) => [ts.wallTime]
  | _ => []

/-- Where the wall times of a step come from. -/
theorem next_walls {id : Nat} {op : Op} {reading : Int} {pc pc' : Pc}
    (h : next id op reading m pc = some (m', pc')) :
    (m'.timestamp.wallTime = m.timestamp.wallTime ∨ m'.timestamp.wallTime ∈ pc.walls) ∧
      ∀ w ∈ pc'.walls, w = m.timestamp.wallTime ∨ w ∈ pc.walls ∨
        (∃ rt, op.rt? = some rt ∧ w = rt.wallTime) ∨
        (∃ oldTime, pc = .readClock oldTime ∧ w = reading.toNat) := by
  unfold next at h
  cases pc with
  | loadLast | nowReset | updateLogical | updateUnlock =>
    cases h
    exact ⟨.inl rfl, nofun⟩
  | readClock oldTime =>
    cases h
    refine ⟨.inl rfl, fun w hw => .inr (.inr (.inr ⟨oldTime, rfl, ?_⟩))⟩
    exact mem_singleton.mp hw
  | swapLast | reloadLast =>
    dsimp only at h
    split at h <;> cases h <;>
      exact ⟨.inl rfl, fun w hw => .inr (.inl hw)⟩
  | checkClock oldTime newTime =>
    dsimp only at h
    split at h <;> cases h
    · exact ⟨.inl rfl, nofun⟩
    · refine ⟨.inl rfl, fun w hw => ?_⟩
      cases op with
      | now => exact .inr (.inl hw)
      | update rt => exact .inr (.inr (.inl ⟨rt, rfl, mem_singleton.mp hw⟩))
      | updateAndCheckMaxOffset rt =>
        rcases mem_cons.mp hw with rfl | hw
        · exact .inr (.inr (.inl ⟨rt, rfl, rfl⟩))
        · exact .inr (.inl hw)
  | nowLock | updateLock =>
    dsimp only at h
    split at h
    · cases h
      exact ⟨.inl rfl, fun w hw => .inr (.inl hw)⟩
    · cases h
  | nowTick p =>
    dsimp only at h
    split at h <;> cases h
    · exact ⟨.inl rfl, nofun⟩
    · exact ⟨.inr (mem_singleton_self _), nofun⟩
  | nowEnforce =>
    cases h
    refine ⟨.inl rfl, fun w hw => ?_⟩
    split at hw
    · cases hw
    · exact .inl (mem_singleton.mp hw)
  | nowUnlock ts =>
    cases h
    exact ⟨.inl rfl, fun w hw => .inr (.inl hw)⟩
  | checkOffset rt p =>
    dsimp only at h
    split at h
    · cases h
      exact ⟨.inl rfl, nofun⟩
    · split at h <;> cases h
      · exact ⟨.inl rfl, fun w hw => .inr (.inl (mem_cons_of_mem _ hw))⟩
      · refine ⟨.inl rfl, fun w hw => .inr (.inl ?_)⟩
        rw [mem_singleton.mp hw]
        exact mem_cons_self
  | fastPath rt =>
    cases h
    refine ⟨.inl rfl, fun w hw => ?_⟩
    split at hw
    · cases hw
    · exact .inr (.inl hw)
  | updateMerge rt =>
    dsimp only at h
    split at h
    · cases h
      exact ⟨.inr (mem_singleton_self _), fun w hw => .inr (.inl hw)⟩
    · split at h <;> cases h <;> exact ⟨.inl rfl, nofun⟩
  | updateEnforce =>
    cases h
    refine ⟨.inl rfl, fun w hw => ?_⟩
    split at hw <;> cases hw
  | done | crashed => cases h

/-! ## Whole runs -/

theorem Op.start_returned (op : Op) : op.start.returned = false := by cases op <;> rfl

theorem Op.start_holds (op : Op) : op.start.holds = false := by cases op <;> rfl

theorem Call.leaves_eq_none {call : Call} (h : call.pc.returned = false) : call.leaves = none := by
  unfold Call.leaves
  cases hpc : call.pc with
  | done o => rw [hpc] at h; cases h
  | _ => rfl

namespace Run

variable {r r' : Run} {id : Nat} {call : Call} {reading : Int} {m : Memory} {pc : Pc}

/-- What holds between steps. -/
structure Inv (r : Run) : Prop where
  /-- a call between `Lock` and `Unlock` has the lock -/
  exclusive : ∀ {id call}, r.calls id = some call → call.pc.holds = true →
    (r.memory call.clock).holder = some id
  returned : ∀ a ∈ r.returned, ∃ call, r.calls a = some call ∧ call.pc.returned = true
  after : ∀ {id call}, r.calls id = some call → ∀ a ∈ call.after,
    ∃ ca, r.calls a = some ca ∧ ca.pc.returned = true
  below : ∀ {c a t}, r.Left c a t → t ≤ (r.memory c).timestamp
  known : ∀ {id call}, r.calls id = some call →
    Local (r.Left call.clock) (r.memory call.clock) call

theorem calls_moved_self : (r.moved id call reading m pc).calls id = some { call with pc } :=
  update_self ..

variable {a : Nat} {ca : Call} {c : Nat} {op : Op}

theorem calls_moved_of_ne (h : a ≠ id) : (r.moved id call reading m pc).calls a = r.calls a :=
  update_of_ne h ..

/-- The calls after one of them has begun or moved. -/
theorem calls_update {calls : Nat → Option Call}
    (h : update calls id (some call) a = some ca) :
    a = id ∧ ca = call ∨ a ≠ id ∧ calls a = some ca := by
  by_cases hid : a = id
  · subst hid
    rw [update_self] at h
    exact .inl ⟨rfl, (Option.some.inj h).symm⟩
  · rw [update_of_ne hid] at h
    exact .inr ⟨hid, h⟩

theorem memory_moved_self : (r.moved id call reading m pc).memory call.clock = m :=
  update_self ..

theorem memory_moved_of_ne (h : c ≠ call.clock) :
    (r.moved id call reading m pc).memory c = r.memory c :=
  update_of_ne h ..

/-- What is left on the clocks after a step: what was, and what the call leaves. -/
theorem left_moved {c a : Nat} {t : Timestamp} (hl : (r.moved id call reading m pc).Left c a t) :
    r.Left c a t ∨ (a = id ∧ c = call.clock ∧ ({ call with pc } : Call).leaves = some t) := by
  obtain ⟨ca, hca, hc, ht⟩ := hl
  rcases calls_update hca with ⟨rfl, rfl⟩ | ⟨ha, hca⟩
  · exact .inr ⟨rfl, hc.symm, ht⟩
  · exact .inl ⟨ca, hca, hc, ht⟩

theorem returned_moved (hcall : r.calls id = some call) (hrun : call.pc.returned = false)
    (ha : r.calls a = some ca) (hret : ca.pc.returned = true) :
    (r.moved id call reading m pc).calls a = some ca := by
  rw [calls_moved_of_ne, ha]
  rintro rfl
  obtain rfl := Option.some.inj (ha.symm.trans hcall)
  rw [hrun] at hret
  cases hret

theorem calls_started_of_ne {c a : Nat} (h : a ≠ id) : (r.started id c op).calls a = r.calls a :=
  update_of_ne h ..

theorem left_started {c c' a : Nat} {t : Timestamp}
    (hl : (r.started id c op).Left c' a t) : r.Left c' a t := by
  obtain ⟨ca, hca, hc, ht⟩ := hl
  rcases calls_update hca with ⟨rfl, rfl⟩ | ⟨ha, hca⟩
  · rw [Call.leaves_eq_none op.start_returned] at ht
    cases ht
  · exact ⟨ca, hca, hc, ht⟩

theorem Inv.start (hi : Inv r) (hfresh : r.calls id = none) : Inv (r.started id c op) := by
  have hkept : ∀ {a ca}, r.calls a = some ca → (r.started id c op).calls a = some ca := by
    intro a ca ha
    rw [calls_started_of_ne, ha]
    rintro rfl
    rw [hfresh] at ha
    cases ha
  have hret : ∀ a ∈ r.returned, ∃ ca, (r.started id c op).calls a = some ca ∧
      ca.pc.returned = true := by
    intro a ha
    obtain ⟨ca, hca, h⟩ := hi.returned a ha
    exact ⟨ca, hkept hca, h⟩
  constructor
  case exclusive =>
    intro a ca ha hh
    rcases calls_update ha with ⟨rfl, rfl⟩ | ⟨hid, ha⟩
    · rw [op.start_holds] at hh
      cases hh
    · exact hi.exclusive ha hh
  case returned => exact hret
  case after =>
    intro a ca ha b hb
    rcases calls_update ha with ⟨rfl, rfl⟩ | ⟨hid, ha⟩
    · exact hret b hb
    · obtain ⟨cb, hcb, h⟩ := hi.after ha b hb
      exact ⟨cb, hkept hcb, h⟩
  case below => exact fun hl => hi.below (left_started hl)
  case known =>
    intro a ca ha
    rcases calls_update ha with ⟨rfl, rfl⟩ | ⟨hid, ha⟩
    · cases op with
      | now => trivial
      | update rt => exact fun rt' h => (Option.some.inj h).ge
      | updateAndCheckMaxOffset rt => trivial
    · exact (hi.known ha).mono (fun _ _ _ => left_started)
        (fun _ _ _ hl => .inl (left_started hl))
        fun _ => rfl

theorem Inv.run (hi : Inv r) (hcall : r.calls id = some call)
    (hnext : next id call.op reading (r.memory call.clock) call.pc = some (m, pc)) :
    Inv (r.moved id call reading m pc) := by
  obtain ⟨hrun, hts, hlock⟩ := next_moves hnext
  obtain ⟨hown, hbelow, hleaves⟩ := (hi.known hcall).next (fun a t => hi.below) hnext
  -- two calls never hold the lock of a clock together
  have hother : ∀ {a ca}, a ≠ id → r.calls a = some ca → ca.clock = call.clock →
      ca.pc.holds = true → call.pc.holds = false := by
    intro a ca hne ha hclock hh
    by_contra hc
    have h₁ := hi.exclusive ha hh
    have h₂ := hi.exclusive hcall (Bool.not_eq_false _ ▸ hc)
    rw [hclock, h₂] at h₁
    exact hne (Option.some.inj h₁).symm
  -- a call that others waited for has returned before, so it is not this one
  have hsettled : ∀ {a ca}, r.calls a = some ca → ∀ b ∈ ca.after, ∀ c t,
      (r.moved id call reading m pc).Left c b t → r.Left c b t := by
    intro a ca ha b hb c t hl
    refine (left_moved hl).resolve_right fun hnew => ?_
    obtain ⟨cb, hcb, hret⟩ := hi.after ha b hb
    rw [hnew.1, hcall] at hcb
    cases hcb
    rw [hrun] at hret
    cases hret
  constructor
  case exclusive =>
    intro a ca ha hh
    rcases calls_update ha with ⟨rfl, rfl⟩ | ⟨hid, ha⟩
    · rw [memory_moved_self]
      rcases hlock with ⟨hsame, hheld⟩ | ⟨-, hgot⟩ | ⟨-, hfree⟩
      · rw [hsame]
        exact hi.exclusive hcall (hheld hh)
      · exact hgot
      · rw [show pc.holds = true from hh] at hfree
        cases hfree
    · have hhold := hi.exclusive ha hh
      by_cases hclock : ca.clock = call.clock
      · rw [hclock, memory_moved_self]
        rw [hclock] at hhold
        rcases hlock with ⟨hsame, -⟩ | ⟨hnone, -⟩ | ⟨hh', -⟩
        · rw [hsame, hhold]
        · rw [hnone] at hhold
          cases hhold
        · rw [hother hid ha hclock hh] at hh'
          cases hh'
      · rw [memory_moved_of_ne hclock]
        exact hhold
  case returned =>
    intro a ha
    have hold : a ∈ r.returned → ∃ ca, (r.moved id call reading m pc).calls a = some ca ∧
        ca.pc.returned = true := by
      intro ha
      obtain ⟨ca, hca, hret⟩ := hi.returned a ha
      exact ⟨ca, returned_moved hcall hrun hca hret, hret⟩
    unfold moved at ha
    dsimp only at ha
    split at ha
    · rename_i hret
      rcases mem_cons.mp ha with rfl | ha
      · exact ⟨_, calls_moved_self, hret⟩
      · exact hold ha
    · exact hold ha
  case after =>
    intro a ca ha b hb
    have hafter : ∃ ca', r.calls a = some ca' ∧ ca'.after = ca.after := by
      rcases calls_update ha with ⟨rfl, rfl⟩ | ⟨hid, ha⟩
      · exact ⟨call, hcall, rfl⟩
      · exact ⟨ca, ha, rfl⟩
    obtain ⟨ca', ha', heq⟩ := hafter
    obtain ⟨cb, hcb, hret⟩ := hi.after ha' b (heq ▸ hb)
    exact ⟨cb, returned_moved hcall hrun hcb hret, hret⟩
  case below =>
    intro c a t hl
    rcases left_moved hl with hold | ⟨-, rfl, ht⟩
    · by_cases hc : c = call.clock
      · subst hc
        rw [memory_moved_self]
        exact hbelow a t hold
      · rw [memory_moved_of_ne hc]
        exact hi.below hold
    · rw [memory_moved_self]
      exact (hleaves t ht).1
  case known =>
    intro a ca ha
    rcases calls_update ha with ⟨rfl, rfl⟩ | ⟨hid, ha⟩
    · refine Local.mono (m := m) hown (fun b hb t hl => hsettled hcall b hb _ t hl)
        (fun htorn b t hl => ?_) fun _ => congrArg _ memory_moved_self
      refine .inl ((left_moved hl).resolve_right fun hnew => ?_)
      -- a call that has stored half of a timestamp has not returned
      have hnone : ({ call with pc } : Call).leaves = none := by
        apply Call.leaves_eq_none
        cases pc <;> first | rfl | cases htorn
      rw [hnone] at hnew
      cases hnew.2.2
    · by_cases hclock : ca.clock = call.clock
      · have hfree := hother hid ha hclock
        have hknown := hi.known ha
        rw [hclock] at hknown ⊢
        rw [memory_moved_self]
        refine hknown.mono (fun b hb t hl => hsettled ha b hb _ t hl) (fun htorn b t hl => ?_)
          fun hh => hts (hfree hh)
        refine (left_moved hl).imp_right fun hnew => (hleaves t hnew.2.2).2 (hfree ?_)
        cases hpc : ca.pc <;> rw [hpc] at htorn <;> first | rfl | cases htorn
      · rw [memory_moved_of_ne hclock]
        have hold : ∀ b t, (r.moved id call reading m pc).Left ca.clock b t →
            r.Left ca.clock b t :=
          fun b t hl => (left_moved hl).resolve_right fun hnew => hclock hnew.2.1
        exact (hi.known ha).mono (fun b _ t => hold b t) (fun _ b t hl => .inl (hold b t hl))
          fun _ => rfl

/-- What configuring a clock does not change. -/
theorem configured {α : Type} {memory : Nat → Memory} {get : Memory → α}
    (h : get m = get (memory c)) (c' : Nat) :
    get (update memory c m c') = get (memory c') := by
  by_cases hc : c' = c
  · subst hc
    rw [update_self, h]
  · rw [update_of_ne hc]

theorem Inv.configure (hi : Inv r) (hts : m.timestamp = (r.memory c).timestamp)
    (hholder : m.holder = (r.memory c).holder) :
    Inv { r with memory := update r.memory c m } where
  exclusive := fun ha hh => (configured hholder _).trans (hi.exclusive ha hh)
  returned := hi.returned
  after := hi.after
  below := fun hl => (hi.below hl).trans_eq (configured hts _).symm
  known := fun ha => (hi.known ha).mono (fun _ _ _ hl => hl) (fun _ _ _ hl => .inl hl)
    fun _ => configured hts _

theorem Inv.init {maxOffset : Nat → Nat} :
    Inv { memory := fun c => { maxOffset := maxOffset c } } where
  exclusive := fun h => by cases h
  returned := nofun
  after := fun h => by cases h
  below := fun ⟨_, h, _⟩ => by cases h
  known := fun h => by cases h

theorem Reachable.inv (h : Reachable r) : Inv r := by
  induction h with
  | init => exact .init
  | step _ hstep ih =>
    cases hstep with
    | start hfresh hrt => exact ih.start hfresh
    | run hcall hnext => exact ih.run hcall hnext
    | configure => exact ih.configure rfl rfl

/-- A reading is above everything that had been left on its clock when its call began. -/
theorem Inv.lt_reading (hi : Inv r) {a b : Nat} {cb : Call} {t t' : Timestamp}
    (hb : r.calls b = some cb) (hrb : cb.pc = .done (.reading t')) (hafter : a ∈ cb.after)
    (hl : r.Left cb.clock a t) : t < t' := by
  have hknown := hi.known hb
  unfold Local at hknown
  rw [hrb] at hknown
  exact hknown a hafter t hl

theorem Reads.unique {t t' : Timestamp} (h : r.Reads a t) (h' : r.Reads a t') : t = t' := by
  obtain ⟨c, hc, hpc⟩ := h
  obtain ⟨c', hc', hpc'⟩ := h'
  obtain rfl := Option.some.inj (hc.symm.trans hc')
  rw [hpc] at hpc'
  injection hpc' with h
  injection h

theorem HappensBefore.reads {a b : Nat} (h : r.HappensBefore a b) :
    (∃ t, r.Reads a t) ∧ ∃ t, r.Reads b t := by
  induction h with
  | sameClock ha hb hra hrb => exact ⟨⟨_, _, ha, hra⟩, ⟨_, _, hb, hrb⟩⟩
  | message ha hu hb hrt hupdated hrb => exact ⟨⟨_, ha⟩, ⟨_, _, hb, hrb⟩⟩
  | trans _ _ ih ih' => exact ⟨ih.1, ih'.2⟩

theorem Inv.lt_of_happensBefore (hi : Inv r) {a b : Nat} (h : r.HappensBefore a b) :
    ∀ {t t' : Timestamp}, r.Reads a t → r.Reads b t' → t < t' := by
  induction h with
  | sameClock ha hb hra hrb hclock hafter =>
    intro t t' hta htb
    obtain rfl := hta.unique ⟨_, ha, hra⟩
    obtain rfl := htb.unique ⟨_, hb, hrb⟩
    refine hi.lt_reading hb hrb hafter ⟨_, ha, hclock, ?_⟩
    unfold Call.leaves
    rw [hra]
  | message ha hu hb hrt hupdated hrb hclock hafter =>
    intro t t' hta htb
    obtain rfl := hta.unique ha
    obtain rfl := htb.unique ⟨_, hb, hrb⟩
    refine hi.lt_reading hb hrb hafter ⟨_, hu, hclock, ?_⟩
    unfold Call.leaves
    rw [hupdated]
    exact hrt
  | trans h _ ih ih' =>
    intro t t' hta htb
    obtain ⟨u, hu⟩ := h.reads.2
    exact (ih hta hu).trans (ih' hu htb)

/-! ### Wall times are physical readings -/

/-- At most a physical reading that was taken, or the zero that clocks start with. -/
def Bounded (r : Run) (w : Nat) : Prop := w = 0 ∨ ∃ p ∈ r.readings, (w : Int) ≤ p

structure WallInv (r : Run) : Prop where
  memory : ∀ c, r.Bounded (r.memory c).timestamp.wallTime
  walls : ∀ {id call}, r.calls id = some call → ∀ w ∈ call.pc.walls, r.Bounded w
  rt : ∀ {id call rt}, r.calls id = some call → call.op.rt? = some rt → r.Bounded rt.wallTime

theorem Bounded.mono {w : Nat} (h : r.Bounded w) (hsub : ∀ p ∈ r.readings, p ∈ r'.readings) :
    r'.Bounded w :=
  h.imp_right fun ⟨p, hp, hle⟩ => ⟨p, hsub p hp, hle⟩

theorem readings_moved (p : Int) (hp : p ∈ r.readings) :
    p ∈ (r.moved id call reading m pc).readings := by
  unfold moved
  dsimp only
  split
  · exact mem_cons_of_mem _ hp
  · exact hp

theorem WallInv.start (hi : WallInv r)
    (hrt : ∀ rt, op.rt? = some rt → ∃ a, r.Reads a rt) : WallInv (r.started id c op) := by
  have hbound : ∀ rt, op.rt? = some rt → r.Bounded rt.wallTime := by
    intro rt h
    obtain ⟨a, ca, hca, hpc⟩ := hrt rt h
    apply hi.walls hca
    rw [hpc]
    exact mem_singleton_self _
  constructor
  case memory => exact hi.memory
  case walls =>
    intro a ca ha w hw
    rcases calls_update ha with ⟨rfl, rfl⟩ | ⟨hid, ha⟩
    · cases op with
      | now => cases hw
      | update rt =>
        obtain rfl := mem_singleton.mp hw
        exact hbound rt rfl
      | updateAndCheckMaxOffset rt => cases hw
    · exact hi.walls ha w hw
  case rt =>
    intro a ca rt ha h
    rcases calls_update ha with ⟨rfl, rfl⟩ | ⟨hid, ha⟩
    · exact hbound rt h
    · exact hi.rt ha h

theorem WallInv.run (hi : WallInv r) (hcall : r.calls id = some call)
    (hnext : next id call.op reading (r.memory call.clock) call.pc = some (m, pc)) :
    WallInv (r.moved id call reading m pc) := by
  obtain ⟨hm, hpc⟩ := next_walls hnext
  constructor
  case memory =>
    intro c
    by_cases hc : c = call.clock
    · subst hc
      rw [memory_moved_self]
      rcases hm with h | h
      · rw [h]
        exact (hi.memory _).mono readings_moved
      · exact (hi.walls hcall _ h).mono readings_moved
    · rw [memory_moved_of_ne hc]
      exact (hi.memory c).mono readings_moved
  case walls =>
    intro a ca ha w hw
    rcases calls_update ha with ⟨rfl, rfl⟩ | ⟨hid, ha⟩
    · rcases hpc w hw with rfl | h | ⟨rt, hrt, rfl⟩ | ⟨oldTime, hread, rfl⟩
      · exact (hi.memory _).mono readings_moved
      · exact (hi.walls hcall w h).mono readings_moved
      · exact (hi.rt hcall hrt).mono readings_moved
      · -- the call has just looked at the physical clock
        rcases le_or_gt reading 0 with hneg | hpos
        · exact .inl (Int.toNat_of_nonpos hneg)
        · refine .inr ⟨reading, ?_, (Int.toNat_of_nonneg hpos.le).le⟩
          unfold moved
          rw [hread]
          exact mem_cons_self
    · exact (hi.walls ha w hw).mono readings_moved
  case rt =>
    intro a ca rt ha h
    rcases calls_update ha with ⟨rfl, rfl⟩ | ⟨hid, ha⟩
    · exact (hi.rt hcall h).mono readings_moved
    · exact (hi.rt ha h).mono readings_moved

theorem WallInv.configure (hi : WallInv r) (hts : m.timestamp = (r.memory c).timestamp) :
    WallInv { r with memory := update r.memory c m } := by
  refine ⟨fun c' => ?_, hi.walls, hi.rt⟩
  show Bounded _ (wallTime _)
  rw [configured hts c']
  exact hi.memory c'

theorem Reachable.wallInv (h : Reachable r) : WallInv r := by
  induction h with
  | init =>
    constructor
    case memory => exact fun _ => .inl rfl
    case walls => exact fun h => by cases h
    case rt => exact fun h => by cases h
  | step _ hstep ih =>
    cases hstep with
    | start hfresh hrt => exact ih.start hrt
    | run hcall hnext => exact ih.run hcall hnext
    | configure => exact ih.configure rfl

/-! ### Scheduled runs -/

/-- Call `id` takes its next step, if it can. -/
def advance (r : Run) (id : Nat) (reading : Int) : Run :=
  match r.calls id with
  | none => r
  | some call =>
    match next id call.op reading (r.memory call.clock) call.pc with
    | none => r
    | some (m, pc) => r.moved id call reading m pc

/-- Call `id` takes `n` steps alone. -/
def advanceBy (id : Nat) (reading : Int) : Nat → Run → Run
  | 0, r => r
  | n + 1, r => advanceBy id reading n (r.advance id reading)

theorem Reachable.advance (h : Reachable r) : Reachable (r.advance id reading) := by
  unfold Run.advance
  split
  · exact h
  · rename_i call hcall
    split
    · exact h
    · rename_i m pc hnext
      exact .step h (.run hcall hnext)

theorem Reachable.advanceBy {n : Nat} (h : Reachable r) : Reachable (advanceBy id reading n r) := by
  induction n generalizing r with
  | zero => exact h
  | succ n ih => exact ih h.advance

/-- A reading of 10 on clock 0. -/
def firstReading : Run := advanceBy 0 10 9 (started {} 0 0 .now)

/-- The first reading is sent to clock 1, whose physical clock shows 3. -/
def secondReading : Run :=
  advanceBy 2 3 8 (started (advanceBy 1 3 6
    (started firstReading 1 1 (.update { wallTime := 10 }))) 2 1 .now)

theorem firstReading_reachable : Reachable firstReading :=
  (Reachable.step (@Reachable.init fun _ => 0) (.start rfl (fun _ h => by cases h))).advanceBy

theorem secondReading_reachable : Reachable secondReading := by
  have hfirst : firstReading.Reads 0 { wallTime := 10 } := ⟨_, rfl, rfl⟩
  have hupdate : Reachable (advanceBy 1 3 6
      (started firstReading 1 1 (.update { wallTime := 10 }))) := by
    refine (Reachable.step firstReading_reachable (.start rfl fun rt h => ⟨0, ?_⟩)).advanceBy
    cases h
    exact hfirst
  exact (Reachable.step hupdate (.start rfl (fun _ h => by cases h))).advanceBy

/-! ### Causality -/

/-- Readings respect causality. A reading is above every reading that had been returned by its
clock, and every timestamp that its clock had been updated with, when its call began; readings
grow along every chain of messages; and a wall time is at most a physical reading that some
clock has taken, or the zero that clocks start with. -/
theorem causality (h : Reachable r) :
    (∀ {a b ca cb t t'}, r.calls a = some ca → r.calls b = some cb → ca.clock = cb.clock →
      a ∈ cb.after → cb.pc = .done (.reading t') →
      (ca.pc = .done (.reading t) ∨ ca.pc = .done .updated ∧ ca.op.rt? = some t) → t < t') ∧
    (∀ {a b t t'}, r.HappensBefore a b → r.Reads a t → r.Reads b t' → t < t') ∧
    ∀ c, (r.memory c).timestamp.wallTime = 0 ∨
      ∃ p ∈ r.readings, ((r.memory c).timestamp.wallTime : Int) ≤ p := by
  refine ⟨?_, fun hab => h.inv.lt_of_happensBefore hab, h.wallInv.memory⟩
  intro a b ca cb t t' ha hb hclock hafter hrb hleft
  refine h.inv.lt_reading hb hrb hafter ⟨ca, ha, hclock, ?_⟩
  unfold Call.leaves
  rcases hleft with hra | ⟨hupdated, hrt⟩
  · rw [hra]
  · rw [hupdated]
    exact hrt

/-- The first reading reaches clock 1, where the next one is above it although the physical
clock is behind. -/
theorem causality_secondReading :
    ({ wallTime := 10 } : Timestamp) < { wallTime := 10, logical := 1 } ∧
    (secondReading.memory 1).timestamp.wallTime = 10 ∧
      ∃ p ∈ secondReading.readings, (10 : Int) ≤ p := by
  obtain ⟨_, hbefore, hwall⟩ := causality secondReading_reachable
  have hmessage : ({ wallTime := 10 } : Timestamp) < { wallTime := 10, logical := 1 } :=
    hbefore (a := 0) (b := 2)
      (.message (u := 1) ⟨_, rfl, rfl⟩ rfl rfl rfl rfl rfl rfl (by decide))
      ⟨_, rfl, rfl⟩ ⟨_, rfl, rfl⟩
  have h10 : (secondReading.memory 1).timestamp.wallTime = 10 := rfl
  refine ⟨hmessage, h10, ?_⟩
  exact (hwall 1).resolve_left (by rw [h10]; decide)

/-- A physical clock that shows a time before the epoch: the wall time stays at the zero that
the clock starts with, which is beyond every physical reading. -/
theorem wallTime_exceeds_readings :
    ∃ r, Reachable r ∧ r.Reads 0 { wallTime := 0, logical := 1 } ∧ r.readings = [-5] ∧
      ∀ p ∈ r.readings, p < (r.memory 0).timestamp.wallTime := by
  refine ⟨advanceBy 0 (-5) 8 (started {} 0 0 .now), ?_, ⟨_, rfl, rfl⟩, rfl, by decide⟩
  exact (Reachable.step (@Reachable.init fun _ => 0)
    (.start rfl (fun _ h => by cases h))).advanceBy

end Run

end Cockroach.Hlc
