import Cockroach.Util.Hlc

/-!
# The tracker of closed timestamps (`lockfree_tracker.go`)

Two buckets stand for all timestamps that are tracked, each with a timestamp that is at or below
those in it and with their number. Any number of calls of `Track` run at once, one atomic
operation at a time; `Untrack` has the tracker for itself. A number is an `int32` and wraps.

* `Reachable.inv`: between two resets a bucket only moves down, and `b1` stays below `b2`.
* `lowerBound_conservative`: the lower bound is at or below whatever is tracked, as long as no
  bucket has `2 ^ 31` tokens out; with so many its count is negative (`refcnt_wraps`).
-/

namespace Cockroach.Closedts

open Hlc Function Multiset

/-- `lockfreeTracker`, with the fields of its two buckets; a bucket is initialised iff its timestamp
is not zero. -/
structure LockfreeTracker where
  ts : Bool → Nat := fun _ => 0
  refcnt : Bool → Int32 := fun _ => 0
  b1 : Bool := false

/-- Where a call of `Track` is, with the bucket that it has chosen. -/
inductive Pc
  /-- before the load of the timestamp of `b1` -/
  | timestamp
  /-- the loop of `extendAndJoin` -/
  | load (b : Bool)
  | compareAndSwap (b : Bool) (t : Nat)
  /-- before the reference is counted -/
  | join (b : Bool)
  /-- the token -/
  | returned (b : Bool)
  deriving DecidableEq, Repr

namespace LockfreeTracker

/-- The bucket `b2` points to. -/
def b2 (t : LockfreeTracker) : Bool := !t.b1

/-- The next atomic operation of `Track`. -/
def next (t : LockfreeTracker) (wts : Nat) : Pc → Option (LockfreeTracker × Pc)
  | .timestamp =>
    let t1 := t.ts t.b1
    some (t, .load (if t1 = 0 ∨ wts ≤ t1 then t.b1 else t.b2))
  | .load b =>
    let s := t.ts b
    some (t, if s ≠ 0 ∧ s ≤ wts then .join b else .compareAndSwap b s)
  | .compareAndSwap b s =>
    if t.ts b = s then some ({ t with ts := Function.update t.ts b wts }, .join b)
    else some (t, .load b)
  | .join b =>
    some ({ t with refcnt := Function.update t.refcnt b (t.refcnt b + 1) }, .returned b)
  | .returned _ => none

/-- `Untrack`; `none` is the `log.Fatalf` about a negative count. -/
def untrack (t : LockfreeTracker) (b : Bool) : Option LockfreeTracker :=
  let refcnt := t.refcnt b - 1
  let t := { t with refcnt := Function.update t.refcnt b refcnt }
  if refcnt < 0 then none
  else if refcnt = 0 then
    -- An initialised bucket that is alone has to be `b1`.
    let t := { t with ts := Function.update t.ts b 0 }
    some (if b = t.b1 then { t with b1 := t.b2 } else t)
  else some t

/-- `LowerBound`. -/
def lowerBound (t : LockfreeTracker) : Timestamp :=
  if t.ts t.b1 = 0 then {} else { wallTime := t.ts t.b1 }

end LockfreeTracker

/-! ## Runs -/

/-- A call of `Track`, until its token is untracked. -/
structure Call where
  ts : Timestamp
  pc : Pc := .timestamp
  deriving DecidableEq, Repr

/-- The bucket in which the call is counted. -/
def Pc.token : Pc → Option Bool
  | .returned b => some b
  | _ => none

structure Run where
  tracker : LockfreeTracker := {}
  calls : Multiset Call := 0

/-- One step of a run. -/
inductive Step : Run → Run → Prop
  | track {r : Run} {ts : Timestamp} (hpos : 0 < ts.wallTime) :
      Step r { r with calls := { ts } ::ₘ r.calls }
  | run {t t' : LockfreeTracker} {c : Call} {pc : Pc} {calls : Multiset Call}
      (h : t.next c.ts.wallTime c.pc = some (t', pc)) :
      Step ⟨t, c ::ₘ calls⟩ ⟨t', { c with pc } ::ₘ calls⟩
  /-- no call of `Track` is in progress -/
  | untrack {t t' : LockfreeTracker} {ts : Timestamp} {b : Bool} {calls : Multiset Call}
      (halone : ∀ c ∈ calls, c.pc.token.isSome) (h : t.untrack b = some t') :
      Step ⟨t, ⟨ts, .returned b⟩ ::ₘ calls⟩ ⟨t', calls⟩

/-- No bucket has more tokens out than its count can hold. -/
def Run.Few (r : Run) : Prop := ∀ b, r.calls.countP (·.pc.token = some b) < 2 ^ 31

/-- The runs whose states all satisfy `ok`. -/
inductive Reachable (ok : Run → Prop) : Run → Prop
  | init : Reachable ok {}
  | step {r r' : Run} (h : Reachable ok r) (hstep : Step r r') (hok : ok r') : Reachable ok r'

/-! ## The invariant -/

/-- A bucket is initialised, at or below a wall time. -/
def LockfreeTracker.Covers (t : LockfreeTracker) (b : Bool) (wts : Nat) : Prop :=
  t.ts b ≠ 0 ∧ t.ts b ≤ wts

/-- The bucket that has a timestamp for the call. -/
def Pc.joined : Pc → Option Bool
  | .join b | .returned b => some b
  | _ => none

/-- What a call knows where it is. -/
def Knows (t : LockfreeTracker) (wts : Nat) : Pc → Prop
  | .timestamp => True
  | .load b => b ≠ t.b1 → t.Covers t.b1 wts
  | .compareAndSwap b s => (b ≠ t.b1 → t.Covers t.b1 wts) ∧ (s = 0 ∨ wts < s)
  | .join b | .returned b => t.Covers b wts

structure Inv (t : LockfreeTracker) (calls : Multiset Call) : Prop where
  counted : ∀ b, t.refcnt b = Int32.ofNat (calls.countP (·.pc.token = some b))
  ordered : ∀ b, t.ts b ≠ 0 → t.Covers t.b1 (t.ts b)
  owned : ∀ b, t.ts b ≠ 0 → ∃ c ∈ calls, c.pc.joined = some b
  known : ∀ c ∈ calls, 0 < c.ts.wallTime ∧ Knows t c.ts.wallTime c.pc

variable {t t' : LockfreeTracker} {c : Call} {pc : Pc} {calls : Multiset Call} {b : Bool}
  {wts : Nat} {r r' : Run}

/-- Without `Untrack` the buckets keep their roles, and those that are initialised stay so and
only move down. -/
structure Lowers (t t' : LockfreeTracker) : Prop where
  b1 : t'.b1 = t.b1
  bucket : ∀ b, t.ts b ≠ 0 → t'.Covers b (t.ts b)

theorem Lowers.covers (h : Lowers t t') (hc : t.Covers b wts) : t'.Covers b wts :=
  ⟨(h.bucket b hc.1).1, (h.bucket b hc.1).2.trans hc.2⟩

theorem Knows.lowers (hk : Knows t wts pc) (h : Lowers t t') : Knows t' wts pc := by
  have hb1 : ∀ b, (b ≠ t.b1 → t.Covers t.b1 wts) → b ≠ t'.b1 → t'.Covers t'.b1 wts := by
    rw [h.b1]
    exact fun b hk hb => h.covers (hk hb)
  cases pc with
  | timestamp => trivial
  | load b => exact hb1 b hk
  | compareAndSwap b s => exact ⟨hb1 b hk.1, hk.2⟩
  | join b | returned b => exact h.covers hk

section

variable (hi : Inv t (c ::ₘ calls))
include hi

/-- A call that has not returned goes on. -/
theorem Inv.go (hrun : c.pc.token = none) (hl : Lowers t t')
    (hcounted : ∀ b, t'.refcnt b = t.refcnt b + if pc.token = some b then 1 else 0)
    (hordered : ∀ b, t'.ts b ≠ 0 → t'.Covers t'.b1 (t'.ts b))
    (howned : ∀ b, t'.ts b ≠ 0 → t.ts b ≠ 0 ∨ pc.joined = some b)
    (hjoined : ∀ b, c.pc.joined = some b → pc.joined = some b)
    (hknows : Knows t' c.ts.wallTime pc) : Inv t' ({ c with pc } ::ₘ calls) := by
  constructor
  case counted =>
    intro b
    have hold := hi.counted b
    rw [countP_cons_of_neg _ (by rw [hrun]; nofun)] at hold
    rw [hcounted, hold, countP_cons, Int32.ofNat_add]
    split_ifs <;> rfl
  case ordered => exact hordered
  case owned =>
    intro b hb
    rcases howned b hb with hb | hb
    · obtain ⟨d, hd, hj⟩ := hi.owned b hb
      rcases mem_cons.mp hd with rfl | hd
      · exact ⟨_, mem_cons_self _ _, hjoined b hj⟩
      · exact ⟨d, mem_cons_of_mem hd, hj⟩
    · exact ⟨_, mem_cons_self _ _, hb⟩
  case known =>
    intro d hd
    rcases mem_cons.mp hd with rfl | hd
    · exact ⟨(hi.known c (mem_cons_self _ _)).1, hknows⟩
    · obtain ⟨hpos, hk⟩ := hi.known d (mem_cons_of_mem hd)
      exact ⟨hpos, hk.lowers hl⟩

/-- The same if no timestamp is stored. -/
theorem Inv.goStill {refcnt : Bool → Int32} (hrun : c.pc.token = none)
    (hcounted : ∀ b, refcnt b = t.refcnt b + if pc.token = some b then 1 else 0)
    (hjoined : ∀ b, c.pc.joined = some b → pc.joined = some b)
    (hknows : Knows t c.ts.wallTime pc) : Inv { t with refcnt } ({ c with pc } ::ₘ calls) := by
  have hl : Lowers t { t with refcnt } := ⟨rfl, fun _ hb => ⟨hb, le_rfl⟩⟩
  exact hi.go hrun hl hcounted hi.ordered (fun _ hb => .inl hb) hjoined (hknows.lowers hl)

/-- The swap that initialises a bucket or moves it down. -/
theorem Inv.swap (hpc : c.pc = .compareAndSwap b (t.ts b))
    (hself : t'.ts b = c.ts.wallTime) (hne : ∀ b', b' ≠ b → t'.ts b' = t.ts b')
    (hb1 : t'.b1 = t.b1) (hrefcnt : t'.refcnt = t.refcnt) :
    Inv t' ({ c with pc := .join b } ::ₘ calls) := by
  obtain ⟨hpos, hk⟩ := hi.known c (mem_cons_self _ _)
  rw [hpc] at hk
  obtain ⟨hseen, hlow⟩ := hk
  have hl : Lowers t t' := by
    refine ⟨hb1, fun b' hb' => ?_⟩
    by_cases hb : b' = b
    · subst hb
      have hlt := hlow.resolve_left hb'
      exact ⟨by omega, by omega⟩
    · exact ⟨by rwa [hne b' hb], (hne b' hb).le⟩
  refine hi.go (by rw [hpc]; rfl) hl (fun b' => ?_) (fun b' hb' => ?_) (fun b' hb' => ?_)
    (by rw [hpc]; nofun) ⟨by omega, hself.le⟩
  · rw [hrefcnt]
    exact (Int32.add_zero _).symm
  · -- Either it is `b1` that moves down, or the call has seen `b1` below its timestamp.
    rw [hb1]
    by_cases hb : b' = b
    · subst hb
      by_cases h1 : b' = t.b1
      · exact ⟨h1 ▸ hb', h1 ▸ le_rfl⟩
      · rw [hself]
        exact hl.covers (hseen h1)
    · rw [hne b' hb] at hb' ⊢
      exact hl.covers (hi.ordered b' hb')
  · by_cases hb : b' = b
    · exact .inr (congrArg some hb.symm)
    · exact .inl (hne b' hb ▸ hb')

theorem Inv.run (h : t.next c.ts.wallTime c.pc = some (t', pc)) :
    Inv t' ({ c with pc } ::ₘ calls) := by
  have hk := (hi.known c (mem_cons_self _ _)).2
  have hsame : ∀ b, t.refcnt b = t.refcnt b + 0 := fun b => (Int32.add_zero _).symm
  cases hpc : c.pc with
  | timestamp =>
    rw [hpc] at h
    cases h
    refine hi.goStill (by rw [hpc]; rfl) hsame (by rw [hpc]; nofun) fun hb => ?_
    split_ifs at hb with h1
    · exact absurd rfl hb
    · rw [not_or, not_le] at h1
      exact ⟨h1.1, h1.2.le⟩
  | load b =>
    rw [hpc] at h hk
    cases h
    by_cases hs : t.ts b ≠ 0 ∧ t.ts b ≤ c.ts.wallTime
    · rw [if_pos hs]
      exact hi.goStill (by rw [hpc]; rfl) hsame (by rw [hpc]; nofun) hs
    · rw [if_neg hs]
      rw [not_and_or, not_not, not_le] at hs
      exact hi.goStill (by rw [hpc]; rfl) hsame (by rw [hpc]; nofun) ⟨hk, hs⟩
  | compareAndSwap b s =>
    rw [hpc] at h hk
    dsimp only [LockfreeTracker.next] at h
    split_ifs at h with hs
    · cases h
      exact hi.swap (hs ▸ hpc) (update_self ..) (fun _ hb => update_of_ne hb ..) rfl rfl
    · cases h
      exact hi.goStill (by rw [hpc]; rfl) hsame (by rw [hpc]; nofun) hk.1
  | join b =>
    rw [hpc] at h hk
    cases h
    refine hi.goStill (by rw [hpc]; rfl) (fun b' => ?_) (fun b' hb' => by rwa [hpc] at hb') hk
    by_cases hb : b' = b
    · subst hb
      simp [Pc.token]
    · simp [hb, Pc.token, Ne.symm hb]
  | returned b =>
    rw [hpc] at h
    cases h

end

theorem joined_of_token (h : pc.token = some b) : pc.joined = some b := by
  cases pc with
  | returned => exact h
  | timestamp | load | compareAndSwap | join => cases h

/-- Of `n + 1` tokens of a bucket one is untracked. -/
theorem untrack_counted {n : Nat} (h : t.refcnt b = Int32.ofNat (n + 1)) (hn : n + 1 < 2 ^ 31) :
    t.untrack b = some (if n = 0 then ⟨update t.ts b 0, update t.refcnt b 0, !b⟩
      else { t with refcnt := update t.refcnt b (Int32.ofNat n) }) := by
  have hsub : t.refcnt b - 1 = Int32.ofNat n := by
    rw [h, Int32.ofNat_add]
    exact Int32.add_sub_cancel _ _
  have hint : (Int32.ofNat n).toInt = n := Int32.toInt_ofNat_of_lt (by omega)
  have hneg : ¬ Int32.ofNat n < 0 := by
    rw [Int32.lt_iff_toInt_lt, hint]
    simp
  have hzero : Int32.ofNat n = 0 ↔ n = 0 := by
    rw [← Int32.toInt_inj, hint]
    simp
  unfold LockfreeTracker.untrack LockfreeTracker.b2
  rw [hsub, if_neg hneg]
  by_cases hn0 : n = 0
  · subst hn0
    by_cases hb : b = t.b1
    · simp [hb]
    · simp [Bool.eq_not_of_ne (Ne.symm hb)]
  · rw [if_neg (hzero.not.mpr hn0), if_neg hn0]

theorem Inv.untrack {ts : Timestamp} (hi : Inv t (⟨ts, .returned b⟩ ::ₘ calls))
    (hfew : Run.Few ⟨t, ⟨ts, .returned b⟩ ::ₘ calls⟩)
    (halone : ∀ c ∈ calls, c.pc.token.isSome) (h : t.untrack b = some t') : Inv t' calls := by
  have hcons : (Call.mk ts (.returned b) ::ₘ calls).countP (·.pc.token = some b) =
      calls.countP (·.pc.token = some b) + 1 := countP_cons_of_pos _ rfl
  have hb := hi.counted b
  have hlt := hfew b
  rw [hcons] at hb hlt
  rw [untrack_counted hb hlt] at h
  cases h
  have hcounted : ∀ b', update t.refcnt b (Int32.ofNat (calls.countP (·.pc.token = some b))) b' =
      Int32.ofNat (calls.countP (·.pc.token = some b')) := by
    intro b'
    by_cases hne : b' = b
    · subst hne
      rw [update_self]
    · rw [update_of_ne hne, hi.counted b', countP_cons]
      simp [Pc.token, Ne.symm hne]
  have howned : ∀ b', t.ts b' ≠ 0 → b' ≠ b → ∃ c ∈ calls, c.pc.joined = some b' := by
    intro b' hb' hne
    obtain ⟨c, hc, hj⟩ := hi.owned b' hb'
    rcases mem_cons.mp hc with rfl | hc
    · exact absurd (Option.some.inj hj).symm hne
    · exact ⟨c, hc, hj⟩
  have hknown {c} (hc : c ∈ calls) := hi.known c (mem_cons_of_mem hc)
  by_cases hn : calls.countP (·.pc.token = some b) = 0
  · -- The bucket is reset, and the other one is `b1`.
    rw [if_pos hn]
    rw [hn] at hcounted
    have hne {b'} (hb : b' ≠ b) := update_of_ne hb 0 t.ts
    have hother : ∀ b', update t.ts b 0 b' ≠ 0 → b' ≠ b := by
      rintro b' hb' rfl
      exact hb' (update_self ..)
    refine ⟨hcounted, fun b' hb' => ?_, fun b' hb' => ?_, fun c hc => ⟨(hknown hc).1, ?_⟩⟩
    · rw [show (!b) = b' from (Bool.eq_not_of_ne (hother b' hb')).symm]
      exact ⟨hb', le_rfl⟩
    · have hb := hother b' hb'
      exact howned b' (hne hb ▸ hb') hb
    · have hk := (hknown hc).2
      have hret := halone c hc
      have hnone := countP_eq_zero.mp hn c hc
      cases hpc : c.pc with
      | returned b' =>
        rw [hpc] at hk hnone
        have hb := hne fun heq => hnone (congrArg some heq)
        exact ⟨fun h => hk.1 (hb.symm.trans h), hb.le.trans hk.2⟩
      | timestamp | load | compareAndSwap | join =>
        rw [hpc] at hret
        cases hret
  · rw [if_neg hn]
    refine ⟨hcounted, hi.ordered, fun b' hb' => ?_, fun c hc => ⟨(hknown hc).1,
      (hknown hc).2.lowers ⟨rfl, fun _ hb => ⟨hb, le_rfl⟩⟩⟩⟩
    by_cases hne : b' = b
    · subst hne
      obtain ⟨c, hc, htok⟩ := countP_pos.mp (Nat.pos_of_ne_zero hn)
      exact ⟨c, hc, joined_of_token htok⟩
    · exact howned b' hb' hne

theorem Inv.step (hi : Inv r.tracker r.calls) (hfew : r.Few) (h : Step r r') :
    Inv r'.tracker r'.calls := by
  cases h with
  | track hpos =>
    refine ⟨fun b => ?_, hi.ordered, fun b hb => ?_, fun c hc => ?_⟩
    · rw [countP_cons_of_neg _ nofun]
      exact hi.counted b
    · obtain ⟨c, hc, hj⟩ := hi.owned b hb
      exact ⟨c, mem_cons_of_mem hc, hj⟩
    · rcases mem_cons.mp hc with rfl | hc
      · exact ⟨hpos, trivial⟩
      · exact hi.known c hc
  | run h => exact hi.run h
  | untrack halone h => exact hi.untrack hfew halone h

theorem Reachable.few (h : Reachable Run.Few r) : r.Few := by
  cases h with
  | init => exact fun _ => Nat.two_pow_pos 31
  | step _ _ hok => exact hok

theorem Reachable.inv (h : Reachable Run.Few r) : Inv r.tracker r.calls := by
  induction h with
  | init => exact ⟨fun _ => rfl, fun _ h => absurd rfl h, fun _ h => absurd rfl h, nofun⟩
  | step h hstep _ ih => exact ih.step h.few hstep

/-! ## What a run shows -/

/-- A timestamp that is in a bucket is covered by it, and so by `b1`. -/
theorem Inv.b1_covers (hi : Inv t calls) (hc : c ∈ calls) (hb : c.pc.joined = some b) :
    t.Covers t.b1 c.ts.wallTime := by
  have hk := (hi.known c hc).2
  have hcov : t.Covers b c.ts.wallTime := by
    cases hpc : c.pc with
    | join b' | returned b' =>
      rw [hpc] at hk hb
      cases hb
      exact hk
    | timestamp | load | compareAndSwap =>
      rw [hpc] at hb
      cases hb
  have h1 := hi.ordered b hcov.1
  exact ⟨h1.1, h1.2.trans hcov.2⟩

theorem lowerBound_eq_empty : t.lowerBound = {} ↔ t.ts t.b1 = 0 := by
  unfold LockfreeTracker.lowerBound
  constructor
  · intro h
    split_ifs at h with h0
    · exact h0
    · exact congrArg Timestamp.wallTime h
  · intro h
    rw [if_pos h]

/-- While no bucket has `2 ^ 31` tokens out: the lower bound is at or below what is tracked; it is
empty iff no timestamp is in a bucket, so if there are no calls; `b1` is below `b2`; an initialised
bucket is counted when no `Track` is in progress; and no token makes `Untrack` fail. -/
theorem lowerBound_conservative (h : Reachable Run.Few r) :
    (∀ c ∈ r.calls, c.pc.token.isSome →
      r.tracker.lowerBound ≤ c.ts ∧ r.tracker.lowerBound ≠ {}) ∧
    (r.tracker.lowerBound = {} ↔ ∀ c ∈ r.calls, c.pc.joined = none) ∧
    (r.tracker.ts r.tracker.b2 ≠ 0 → r.tracker.ts r.tracker.b1 ≠ 0 ∧
      r.tracker.ts r.tracker.b1 ≤ r.tracker.ts r.tracker.b2) ∧
    ((∀ c ∈ r.calls, c.pc.token.isSome) →
      ∀ b, r.tracker.ts b ≠ 0 → 0 < r.tracker.refcnt b) ∧
    ∀ c ∈ r.calls, ∀ b, c.pc.token = some b → (r.tracker.untrack b).isSome := by
  have hi := h.inv
  have hcounted : ∀ c ∈ r.calls, ∀ b, c.pc.token = some b →
      ∃ n, r.tracker.refcnt b = Int32.ofNat (n + 1) ∧ n + 1 < 2 ^ 31 := by
    intro c hc b hb
    have hpos : 0 < r.calls.countP (·.pc.token = some b) := countP_pos.mpr ⟨c, hc, hb⟩
    have hcnt := hi.counted b
    have hlt := h.few b
    obtain ⟨n, hn⟩ := Nat.exists_eq_succ_of_ne_zero hpos.ne'
    rw [hn] at hcnt hlt
    exact ⟨n, hcnt, hlt⟩
  refine ⟨fun c hc htok => ?_, ?_, fun h2 => hi.ordered _ h2, fun hall b hb => ?_,
    fun c hc b hb => ?_⟩
  · obtain ⟨b, hb⟩ := Option.isSome_iff_exists.mp htok
    have hcov := hi.b1_covers hc (joined_of_token hb)
    refine ⟨?_, fun h0 => hcov.1 (lowerBound_eq_empty.mp h0)⟩
    unfold LockfreeTracker.lowerBound
    rw [if_neg hcov.1, Timestamp.le_def]
    rcases hcov.2.lt_or_eq with hlt | heq
    · exact .inl hlt
    · exact .inr ⟨heq, Nat.zero_le _⟩
  · rw [lowerBound_eq_empty]
    constructor
    · intro h0 c hc
      cases hj : c.pc.joined with
      | none => rfl
      | some b => exact absurd h0 (hi.b1_covers hc hj).1
    · intro hnone
      by_contra h0
      obtain ⟨c, hc, hj⟩ := hi.owned _ h0
      rw [hnone c hc] at hj
      cases hj
  · obtain ⟨c, hc, hj⟩ := hi.owned b hb
    obtain ⟨b', hb'⟩ := Option.isSome_iff_exists.mp (hall c hc)
    have hsame := (joined_of_token hb').symm.trans hj
    cases hsame
    obtain ⟨n, hn, hlt⟩ := hcounted c hc b hb'
    rw [hn, Int32.lt_iff_toInt_lt, Int32.toInt_ofNat_of_lt hlt]
    exact Int.natCast_pos.mpr n.succ_pos
  · obtain ⟨n, hn, hlt⟩ := hcounted c hc b hb
    rw [untrack_counted hn hlt]
    rfl

/-- Two calls of `Track` of the timestamps `10` and `20` fill one bucket each: the second reads
`b1` when the first has stored its timestamp but is not yet counted. When the first is untracked,
`b2` takes the place of `b1`. -/
theorem lowerBound_conservative_two : ∃ t,
    Reachable Run.Few ⟨t, {⟨⟨20, 3⟩, .returned true⟩}⟩ ∧ t.b1 = true ∧
      t.lowerBound ≤ ⟨20, 3⟩ ∧ t.lowerBound ≠ {} := by
  have few {t : LockfreeTracker} {calls : Multiset Call} (hc : calls.card ≤ 2) :
      Run.Few ⟨t, calls⟩ := fun _ => ((countP_le_card _ _).trans hc).trans_lt (by decide)
  have swap {ok : Run → Prop} {t : LockfreeTracker} {c d : Call}
      (h : Reachable ok ⟨t, {c, d}⟩) : Reachable ok ⟨t, {d, c}⟩ := by
    rwa [pair_comm] at h
  have h1 : Reachable Run.Few ⟨{}, {⟨⟨10, 5⟩, .timestamp⟩}⟩ :=
    Reachable.init.step (.track (by decide)) (few (by decide))
  have h2 := ((h1.step (.run rfl) (few (by decide))).step (.run rfl) (few (by decide))).step
    (.run rfl) (few (by decide))
  have h3 := h2.step (@Step.track _ ⟨20, 3⟩ (by decide)) (few (by decide))
  have h4 := h3.step (.run rfl) (few (by decide))
  have h5 := (swap h4).step (.run rfl) (few (by decide))
  have h6 := (((swap h5).step (.run rfl) (few (by decide))).step (.run rfl)
    (few (by decide))).step (.run rfl) (few (by decide))
  have h7 := (swap h6).step (.untrack (by decide) rfl) (few (by decide))
  exact ⟨_, h7, rfl, (lowerBound_conservative h7).1 _ (mem_singleton_self _) rfl⟩

/-! ## The count of a bucket wraps -/

/-- `n + 1` calls of `Track` of one timestamp, none of them untracked. -/
theorem reachable_replicate (n : Nat) : ∃ t, Reachable (fun _ => True)
    ⟨t, replicate (n + 1) ⟨⟨10, 0⟩, .returned false⟩⟩ ∧ t.b1 = false ∧ t.ts false = 10 ∧
      t.refcnt false = Int32.ofNat (n + 1) := by
  induction n with
  | zero =>
    have h0 : Reachable (fun _ => True) ⟨{}, {⟨⟨10, 0⟩, .timestamp⟩}⟩ :=
      Reachable.init.step (.track (by decide)) trivial
    have h := (((h0.step (.run rfl) trivial).step (.run rfl) trivial).step (.run rfl)
      trivial).step (.run rfl) trivial
    exact ⟨_, h, rfl, rfl, rfl⟩
  | succ n ih =>
    obtain ⟨t, h, hb1, hts, hcnt⟩ := ih
    have h0 := h.step (@Step.track _ ⟨10, 0⟩ (by decide)) trivial
    have hload : t.next 10 .timestamp = some (t, .load false) := by
      simp [LockfreeTracker.next, hb1, hts]
    have hjoin : t.next 10 (.load false) = some (t, .join false) := by
      simp [LockfreeTracker.next, hts]
    have h2 := (h0.step (.run hload) trivial).step (.run hjoin) trivial
    have h3 := h2.step (.run rfl) trivial
    rw [← replicate_succ] at h3
    refine ⟨_, h3, hb1, hts, ?_⟩
    change update t.refcnt false (t.refcnt false + 1) false = _
    rw [update_self, hcnt, Int32.ofNat_add (n + 1)]
    rfl

/-- With `2 ^ 31` tokens out and no `Track` in progress an initialised bucket has a negative
count. -/
theorem refcnt_wraps : ∃ r, Reachable (fun _ => True) r ∧ (∀ c ∈ r.calls, c.pc.token.isSome) ∧
    r.tracker.ts false ≠ 0 ∧ r.tracker.refcnt false < 0 := by
  obtain ⟨t, h, -, hts, hcnt⟩ := reachable_replicate (2 ^ 31 - 1)
  refine ⟨_, h, fun c hc => ?_, ?_, ?_⟩
  · rw [eq_of_mem_replicate hc]
    rfl
  · rw [hts]
    decide
  · rw [hcnt]
    decide

end Cockroach.Closedts
