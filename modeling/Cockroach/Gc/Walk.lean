import Cockroach.Gc.Contents
import Cockroach.Lib.Outcome

/-!
# The calls of a walk

Over a listing of a range the iterator sees its entries one by one, each with the newest
range tombstone over its key at or below the threshold (`Ready`): neither the ring nor the
cached range key can be told from looking at the entries directly. The loop then makes, key
by key, the calls of `RangeContents.calls`, and ends (`loop_eq`).
-/

namespace Cockroach.Gc

open Lib Hlc Storage GcIteratorState
open List hiding next

/-- The newest timestamp at or below the threshold in a stack, or the empty one. -/
def stackTS (threshold : Timestamp) (s : MVCCRangeKeyStack) : Timestamp :=
  ((s.versions.firstAtOrBelow threshold).map (·.timestamp)).getD {}

/-- The newest range tombstone over a key at or below the threshold. -/
def RangeContents.rangeTS (c : RangeContents) (threshold : Timestamp) (k : Key) : Timestamp :=
  ((c.stackOver k).map (stackTS threshold)).getD {}

theorem RangeContents.stackOver_some {c : RangeContents} {k : Key} {s : MVCCRangeKeyStack}
    (h : c.stackOver k = some s) : s ∈ c.rangeTombstones ∧ s.containsKey k := by
  obtain ⟨hk, -⟩ := find?_eq_some_iff_append.mp h
  exact ⟨mem_of_find?_eq_some h, of_decide_eq_true hk⟩

/-- Fragments are told apart by where they start. -/
theorem RangeContents.eq_of_startKey {c : RangeContents} {s t : MVCCRangeKeyStack}
    (hs : s ∈ c.rangeTombstones) (ht : t ∈ c.rangeTombstones) (h : s.startKey = t.startKey) :
    s = t := by
  by_contra hne
  have hsym : c.rangeTombstones.Pairwise fun s t =>
      s.endKey ≤ t.startKey ∨ t.endKey ≤ s.startKey := c.fragments.imp Or.inl
  have : Std.Symm fun s t : MVCCRangeKeyStack =>
      s.endKey ≤ t.startKey ∨ t.endKey ≤ s.startKey := ⟨fun _ _ h => h.symm⟩
  rcases hsym.forall hs ht hne with hle | hle
  · exact absurd (c.bounds s hs).2 (not_lt.mpr (hle.trans_eq h.symm))
  · exact absurd (c.bounds t ht).2 (not_lt.mpr (hle.trans_eq h))

/-- The iterator stands before the entries `es`. -/
structure Ready (c : RangeContents) (threshold : Timestamp) (es : List MvccKeyValue)
    (it : GcIterator) : Prop where
  same : it.threshold = threshold
  itErr : it.itErr = none
  err : it.err = none
  entries : it.buf.map (·.1) ++ it.it.filterMap (·.point) = es
  stamped : ∀ e ∈ it.buf, e.2 = c.rangeTS threshold e.1.key.key
  ranges : ∀ p ∈ it.it, ∀ kv ∈ p.point, p.rangeKeys = c.stackOver kv.key.key
  cache : it.cachedRangeTombstoneKey ≠ [] → ∃ s ∈ c.rangeTombstones,
    s.startKey = it.cachedRangeTombstoneKey ∧ it.cachedRangeTombstoneTS = stackTS threshold s

variable {c : RangeContents} {threshold : Timestamp} {es : List MvccKeyValue} {it : GcIterator}
variable {ps : List Position}

theorem Listing.ready (h : Listing c ps) : Ready c threshold c.entries { it := ps, threshold } where
  same := rfl
  itErr := rfl
  err := rfl
  entries := h.points
  stamped := fun e he => by cases he
  ranges := h.ranges
  cache := fun h => absurd rfl h

variable {cur : MvccKeyValue}

namespace Ready

/-- The cached timestamp is the one of the stack. -/
theorem currentRangeTS (h : Ready c threshold es { it with it := ps })
    {s : MVCCRangeKeyStack} (hs : s ∈ c.rangeTombstones) :
    (it.currentRangeTS s).1 = stackTS threshold s ∧ (it.currentRangeTS s).2.buf = it.buf ∧
      Ready c threshold es { (it.currentRangeTS s).2 with it := ps } := by
  unfold GcIterator.currentRangeTS
  split_ifs with heq
  · have hne : it.cachedRangeTombstoneKey ≠ [] := by
      rw [← heq]
      exact (c.bounds s hs).1
    obtain ⟨t, ht, hstart, hts⟩ := h.cache hne
    rw [RangeContents.eq_of_startKey hs ht (heq.trans hstart.symm)]
    exact ⟨hts, rfl, h⟩
  · have hts : ((s.versions.firstAtOrBelow it.threshold).map (·.timestamp)).getD {} =
        stackTS threshold s := by
      rw [show it.threshold = threshold from h.same]
      rfl
    exact ⟨hts, rfl, { h with cache := fun _ => ⟨s, hs, rfl, hts⟩ }⟩

/-- A position is read: its point, if it has one, is stamped. -/
theorem read {p : Position} (h : Ready c threshold es { it with it := p :: ps }) :
    Ready c threshold es { it.read p with it := ps } := by
  unfold GcIterator.read
  have hps : ∀ q ∈ ps, ∀ kv ∈ q.point, q.rangeKeys = c.stackOver kv.key.key := fun q hq =>
    h.ranges q (mem_cons_of_mem _ hq)
  have hes := h.entries
  rw [filterMap_cons] at hes
  cases hp : p.point with
  | none =>
    rw [hp] at hes
    exact { h with entries := hes, ranges := hps }
  | some kv =>
    rw [hp] at hes
    have hr := h.ranges p mem_cons_self kv hp
    have happ : ∀ ts : Timestamp,
        (it.buf ++ [(kv, ts)]).map (·.1) ++ ps.filterMap (·.point) = es := by
      intro ts
      rw [← hes]
      simp
    have hstamped : ∀ ts, ts = c.rangeTS threshold kv.key.key → ∀ e ∈ it.buf ++ [(kv, ts)],
        e.2 = c.rangeTS threshold e.1.key.key := by
      intro ts hts
      exact forall_mem_append.mpr ⟨h.stamped, forall_mem_singleton.mpr hts⟩
    unfold RangeContents.rangeTS at hstamped
    rw [← hr] at hstamped
    cases hk : p.rangeKeys with
    | none =>
      rw [hk] at hstamped
      exact { h with entries := happ _, stamped := hstamped _ rfl, ranges := hps }
    | some s =>
      rw [hk] at hr hstamped
      obtain ⟨hts, hbuf, hready⟩ := h.currentRangeTS (RangeContents.stackOver_some hr.symm).1
      dsimp only
      rw [hbuf]
      exact { hready with entries := happ _, stamped := hstamped _ hts, ranges := hps }

/-- The ring is filled as far as there are entries. -/
theorem fillFrom (n : Nat) (h : Ready c threshold es { it with it := ps }) :
    (GcIterator.fillFrom n ps it).1 = decide (n ≤ es.length) ∧
      Ready c threshold es (GcIterator.fillFrom n ps it).2 ∧
      (n ≤ es.length → n ≤ (GcIterator.fillFrom n ps it).2.buf.length) ∧
      it.buf.length ≤ (GcIterator.fillFrom n ps it).2.buf.length := by
  induction ps generalizing it with
  | nil =>
    have hlen : es.length = it.buf.length := by
      rw [← h.entries]
      simp
    unfold GcIterator.fillFrom
    split_ifs with hn
    · exact ⟨(decide_eq_true (by omega)).symm, h, fun _ => hn, le_rfl⟩
    · refine ⟨(decide_eq_false (by omega)).symm, ?_, fun hn' => absurd hn' (by omega), le_rfl⟩
      exact { h with err := h.itErr }
  | cons p ps ih =>
    unfold GcIterator.fillFrom
    split_ifs with hn
    · have hle : it.buf.length ≤ es.length := by
        rw [← h.entries]
        simp
      exact ⟨(decide_eq_true (by omega)).symm, h, fun _ => hn, le_rfl⟩
    · obtain ⟨h₁, h₂, h₃, h₄⟩ := ih h.read
      refine ⟨h₁, h₂, h₃, le_trans ?_ h₄⟩
      unfold GcIterator.read GcIterator.currentRangeTS
      cases p.point with
      | none => exact le_rfl
      | some kv =>
        cases p.rangeKeys with
        | none =>
          simp
        | some s =>
          dsimp only
          split_ifs <;> simp

/-- `peekAt` shows the entry at its index, if there is one. -/
theorem peekAt (h : Ready c threshold es it) (i : Nat) :
    (it.peekAt i).1 = es[i]?.map (fun kv => (kv, c.rangeTS threshold kv.key.key)) ∧
      Ready c threshold es (it.peekAt i).2 ∧
      (i < es.length → i < (it.peekAt i).2.buf.length) ∧
      it.buf.length ≤ (it.peekAt i).2.buf.length := by
  have hshow : ∀ {it' : GcIterator}, Ready c threshold es it' → i < it'.buf.length →
      it'.buf[i]? = es[i]?.map fun kv => (kv, c.rangeTS threshold kv.key.key) := by
    intro it' h' hi
    have hget : es[i]? = some it'.buf[i].1 := by
      rw [← h'.entries, getElem?_append_left (by simpa using hi)]
      simp [hi]
    rw [hget, getElem?_eq_getElem hi]
    show some _ = some (_, _)
    rw [← h'.stamped _ (getElem_mem hi)]
  unfold GcIterator.peekAt
  split_ifs with hlen
  · obtain ⟨hok, hready, hbuf, hle⟩ := h.fillFrom (i + 1)
    unfold GcIterator.fillTo
    rcases hfill : GcIterator.fillFrom (i + 1) it.it it with ⟨ok, it'⟩
    rw [hfill] at hok hready hbuf hle
    cases ok with
    | true =>
      have hlt : i < es.length := by
        have := of_decide_eq_true hok.symm
        omega
      exact ⟨hshow hready (hbuf hlt), hready, fun _ => hbuf hlt, hle⟩
    | false =>
      have hge : ¬ i + 1 ≤ es.length := of_decide_eq_false hok.symm
      refine ⟨?_, hready, fun hi => absurd hi hge, hle⟩
      rw [getElem?_eq_none (by omega)]
      rfl
  · exact ⟨hshow h (not_le.mp hlen), h, fun _ => not_le.mp hlen, le_rfl⟩

/-- The two entries that follow, as far as they are of the same key. -/
def ahead (cur : MvccKeyValue) : List MvccKeyValue → Option MvccKeyValue × Option MvccKeyValue
  | [] => (none, none)
  | next :: es =>
    if next.key.key = cur.key.key then
      (some next, es.head?.filter fun kv => kv.key.key = cur.key.key)
    else (none, none)

theorem ahead_cons {cur next : MvccKeyValue} (h : next.key.key = cur.key.key) :
    ahead cur (next :: es) = (some next, es.head?.filter fun kv => kv.key.key = cur.key.key) :=
  if_pos h

/-- `state` shows the next entry and what follows it. -/
theorem state (h : Ready c threshold (cur :: es) it) :
    ∃ it', it.state = (some ⟨cur, (ahead cur es).1, (ahead cur es).2,
        c.rangeTS threshold cur.key.key⟩, it') ∧
      Ready c threshold (cur :: es) it' ∧ 1 ≤ it'.buf.length ∧
      ((ahead cur es).1.isSome = true → 2 ≤ it'.buf.length) := by
  obtain ⟨h₀, hr₀, hb₀, -⟩ := h.peekAt 0
  unfold GcIterator.state
  rcases hp₀ : it.peekAt 0 with ⟨e₀, it₀⟩
  rw [hp₀] at h₀ hr₀ hb₀
  dsimp only at h₀ hr₀ hb₀
  subst h₀
  replace hb₀ := hb₀ (Nat.succ_pos _)
  obtain ⟨h₁, hr₁, hb₁, hl₁⟩ := hr₀.peekAt 1
  dsimp only [getElem?_cons_zero, Option.map_some]
  rcases hp₁ : it₀.peekAt 1 with ⟨e₁, it₁⟩
  rw [hp₁] at h₁ hr₁ hb₁ hl₁
  dsimp only at h₁ hr₁ hb₁ hl₁
  subst h₁
  cases es with
  | nil =>
    refine ⟨it₁, ?_, hr₁, by omega, fun hn => by cases hn⟩
    simp [ahead, hr₁.err]
  | cons next es =>
    replace hb₁ := hb₁ (by simp)
    dsimp only [getElem?_cons_succ, getElem?_cons_zero, Option.map_some]
    by_cases hkey : next.key.key = cur.key.key
    · rw [if_neg (not_not.mpr hkey)]
      obtain ⟨h₂, hr₂, -, hl₂⟩ := hr₁.peekAt 2
      rcases hp₂ : it₁.peekAt 2 with ⟨e₂, it₂⟩
      rw [hp₂] at h₂ hr₂ hl₂
      dsimp only at h₂ hr₂ hl₂
      subst h₂
      refine ⟨it₂, ?_, hr₂, by omega, fun _ => by omega⟩
      cases es with
      | nil => simp [ahead, hkey, hr₂.err]
      | cons afterNext es =>
        by_cases hafter : afterNext.key.key = cur.key.key
        · simp [ahead, hkey, hafter, Option.filter]
        · simp [ahead, hkey, hafter, Option.filter]
    · rw [if_pos hkey]
      refine ⟨it₁, ?_, hr₁, by omega, fun hn => ?_⟩
      · simp [ahead, hkey]
      · simp [ahead, hkey] at hn

theorem state_nil (h : Ready c threshold [] it) :
    ∃ it', it.state = (none, it') ∧ it'.err = none := by
  obtain ⟨h₀, hr₀, -⟩ := h.peekAt 0
  unfold GcIterator.state
  rcases hp₀ : it.peekAt 0 with ⟨e₀, it₀⟩
  rw [hp₀] at h₀ hr₀
  subst h₀
  exact ⟨it₀, rfl, hr₀.err⟩

/-- A step leaves the first entry behind. -/
theorem step (h : Ready c threshold (cur :: es) it) (hbuf : 1 ≤ it.buf.length) :
    ∃ it', it.step = .ok it' ∧ Ready c threshold es it' ∧
      it'.buf.length + 1 = it.buf.length := by
  unfold GcIterator.step
  cases hb : it.buf with
  | nil =>
    rw [hb] at hbuf
    exact absurd hbuf (Nat.not_succ_le_zero 0)
  | cons e buf =>
    refine ⟨{ it with buf }, rfl, ⟨h.same, h.itErr, h.err, ?_, fun e' he' => ?_, h.ranges,
      h.cache⟩, rfl⟩
    · have := h.entries
      rw [hb] at this
      exact (cons.inj this).2
    · exact h.stamped e' (by rw [hb]; exact mem_cons_of_mem _ he')

end Ready

/-! ## The calls for a key -/

/-- What `isGarbage` says of a version; `next` is the next committed version. -/
def verdict (threshold rangeTS : Timestamp) (v : Version) (next : Option Version) : Bool :=
  decide (v.timestamp ≤ threshold) && (decide (v.timestamp < rangeTS) || v.value.isNone ||
    next.any fun w => decide (w.timestamp ≤ threshold))

/-- The calls for a key with the given versions, the oldest first. The newest of them is
that of an intent if there is metadata. -/
def keyCalls (threshold rangeTS : Timestamp) (k : Key) (m : Option (List UInt8)) :
    List Version → List Call
  | [] => m.toList.map fun value => ⟨metaEntry k value, false, true⟩
  | [v] => [⟨v.entry k, m.isNone && verdict threshold rangeTS v none, true⟩]
  | v :: w :: vs =>
    ⟨v.entry k, verdict threshold rangeTS v (if vs = [] ∧ m.isSome then none else some w),
      false⟩ :: keyCalls threshold rangeTS k m (w :: vs)

/-- The calls for a range. -/
def RangeContents.calls (c : RangeContents) (threshold : Timestamp) : List Call :=
  c.keys.reverse.flatMap fun p =>
    keyCalls threshold (c.rangeTS threshold p.1) p.1 p.2.metaValue p.2.versions.reverse

section Verdict

variable {rangeTS : Timestamp} {v w : Version} {k : Key} {m : Option (List UInt8)}

/-- The newest committed version is garbage only by itself or below a range tombstone. -/
theorem isGarbage_newest (next : Option MvccKeyValue) :
    isGarbage threshold (v.entry k) next true rangeTS = .ok (verdict threshold rangeTS v none) := by
  unfold isGarbage verdict
  rw [show (v.entry k).key.timestamp = v.timestamp from rfl]
  by_cases hle : v.timestamp ≤ threshold
  · rw [if_neg (not_not.mpr hle)]
    by_cases hlt : v.timestamp < rangeTS
    · rw [if_pos hlt]
      simp [hle, hlt]
    · rw [if_neg hlt]
      cases hv : v.value with
      | none => cases next <;> simp [Version.entry, hv, hle]
      | some value => simp [Version.entry, hv, hlt]
  · rw [if_pos hle]
    simp [hle]

/-- An older version is garbage also if the next one is at or below the threshold. -/
theorem isGarbage_older : isGarbage threshold (v.entry k) (some (w.entry k)) false rangeTS =
      .ok (verdict threshold rangeTS v (some w)) := by
  unfold isGarbage verdict
  rw [show (v.entry k).key.timestamp = v.timestamp from rfl]
  by_cases hle : v.timestamp ≤ threshold
  · rw [if_neg (not_not.mpr hle)]
    by_cases hlt : v.timestamp < rangeTS
    · rw [if_pos hlt]
      simp [hle, hlt]
    · rw [if_neg hlt, decide_eq_true hle, decide_eq_false hlt]
      rfl
  · rw [if_pos hle]
    simp [hle]

theorem entry_isValue (hv : v.timestamp ≠ {}) : (v.entry k).key.isValue = true :=
  MVCCKey.isValue_iff.mpr hv

theorem metaEntry_isValue (value : List UInt8) : (metaEntry k value).key.isValue = false := rfl

theorem call_meta (value : List UInt8) (next afterNext : Option MvccKeyValue) :
    GcIteratorState.call ⟨metaEntry k value, next, afterNext, rangeTS⟩ threshold =
      .ok ⟨metaEntry k value, false, true⟩ := rfl

variable (hv : v.timestamp ≠ {})
include hv

/-- The provisional value of an intent is skipped. -/
theorem call_intent (value : List UInt8) (afterNext : Option MvccKeyValue) :
    GcIteratorState.call ⟨v.entry k, some (metaEntry k value), afterNext, rangeTS⟩ threshold =
      .ok ⟨v.entry k, false, true⟩ := by
  unfold GcIteratorState.call curIsNotValue curIsIntent
  simp [entry_isValue hv, metaEntry_isValue]

/-- The newest version of a key without an intent. -/
theorem call_newest :
    GcIteratorState.call ⟨v.entry k, none, none, rangeTS⟩ threshold =
      .ok ⟨v.entry k, verdict threshold rangeTS v none, true⟩ := by
  unfold GcIteratorState.call curIsNotValue curIsIntent curIsNewest curLastKeyVersion
  simp [entry_isValue hv, isGarbage_newest, bind, Except.bind, pure, Except.pure]

/-- The version under an intent. -/
theorem call_under_intent (hw : w.timestamp ≠ {}) (value : List UInt8) :
    GcIteratorState.call ⟨v.entry k, some (w.entry k), some (metaEntry k value), rangeTS⟩
        threshold =
      .ok ⟨v.entry k, verdict threshold rangeTS v none, false⟩ := by
  unfold GcIteratorState.call curIsNotValue curIsIntent curIsNewest curLastKeyVersion
  simp [entry_isValue hv, entry_isValue hw, metaEntry_isValue, isGarbage_newest, bind,
    Except.bind, pure, Except.pure]

/-- A version under a committed one. -/
theorem call_older (hw : w.timestamp ≠ {})
    {afterNext : Option MvccKeyValue} (ha : ∀ kv ∈ afterNext, kv.key.isValue = true) :
    GcIteratorState.call ⟨v.entry k, some (w.entry k), afterNext, rangeTS⟩ threshold =
      .ok ⟨v.entry k, verdict threshold rangeTS v (some w), false⟩ := by
  have hany : (afterNext.any fun kv => !kv.key.isValue) = false := by
    cases afterNext with
    | none => rfl
    | some kv => simp [ha kv rfl]
  unfold GcIteratorState.call curIsNotValue curIsIntent curIsNewest curLastKeyVersion
  simp [entry_isValue hv, entry_isValue hw, hany, isGarbage_older, bind, Except.bind, pure,
    Except.pure]

end Verdict

/-! ## The loop -/

section Loop

variable {σ ε : Type} (found : σ → Call → Except ε σ) (stop : σ → Stop → ε)

theorem loop_succ {s : GcIteratorState} {call : Call} {it₁ it₂ it₃ : GcIterator}
    (hstate : it.state = (some s, it₁)) (hsame : it₁.threshold = threshold)
    (hcall : s.call threshold = .ok call) (hstep : it₁.step = .ok it₂)
    (hrest : (if !s.curIsNotValue && s.curIsIntent then it₂.step else .ok it₂) = .ok it₃)
    (n : Nat) (b : σ) :
    loop found stop (n + 1) it b = found b call >>= loop found stop n it₃ := by
  rw [loop, hstate]
  dsimp only
  rw [hsame, hcall, hstep]
  simp only [Except.mapError, bind, Except.bind]
  cases found b call with
  | error e => rfl
  | ok b' =>
    dsimp only
    split_ifs at hrest ⊢
    · rw [hrest]
    · cases hrest
      rfl

/-- A round of the loop over an entry that is not an intent's. -/
theorem loop_round {call : Call} (h : Ready c threshold (cur :: es) it)
    (hcall : GcIteratorState.call ⟨cur, (Ready.ahead cur es).1, (Ready.ahead cur es).2,
      c.rangeTS threshold cur.key.key⟩ threshold = .ok call)
    (hno : (cur.key.isValue && (Ready.ahead cur es).1.any fun kv => !kv.key.isValue) = false)
    (n : Nat) :
    ∃ it', Ready c threshold es it' ∧
      ∀ b, loop found stop (n + 1) it b = found b call >>= loop found stop n it' := by
  obtain ⟨it₁, hstate, hready, hbuf, -⟩ := h.state
  obtain ⟨it₂, hstep, hready₂, -⟩ := hready.step hbuf
  refine ⟨it₂, hready₂, loop_succ found stop hstate hready.same hcall hstep (if_neg ?_) n⟩
  unfold curIsNotValue curIsIntent
  rw [Bool.not_not, hno]
  exact Bool.false_ne_true

/-- A round of the loop over an intent. -/
theorem loop_round_intent {v : Version} {k : Key} {value : List UInt8}
    (hv : v.timestamp ≠ {}) (h : Ready c threshold (v.entry k :: metaEntry k value :: es) it)
    (n : Nat) :
    ∃ it', Ready c threshold es it' ∧ ∀ b, loop found stop (n + 1) it b =
      found b ⟨v.entry k, false, true⟩ >>= loop found stop n it' := by
  obtain ⟨it₁, hstate, hready, hbuf, hbuf₂⟩ := h.state
  rw [Ready.ahead_cons (show (metaEntry k value).key.key = (v.entry k).key.key from rfl)]
    at hstate hbuf₂
  replace hbuf₂ := hbuf₂ rfl
  obtain ⟨it₂, hstep, hready₂, hlen⟩ := hready.step hbuf
  obtain ⟨it₃, hstep₃, hready₃, -⟩ := hready₂.step (by omega)
  refine ⟨it₃, hready₃, loop_succ found stop hstate hready.same (call_intent hv _ _) hstep ?_ n⟩
  rw [if_pos, hstep₃]
  unfold curIsNotValue curIsIntent
  simp [entry_isValue hv, metaEntry_isValue]

/-- The entries of a key, the oldest version first. -/
def keyEntries (k : Key) (m : Option (List UInt8)) (vs : List Version) : List MvccKeyValue :=
  vs.map (·.entry k) ++ m.toList.map (metaEntry k)

theorem ahead_version (k : Key) (m : Option (List UInt8)) (v w : Version) (vs : List Version) :
    Ready.ahead (v.entry k) (keyEntries k m (w :: vs) ++ es) =
      (some (w.entry k), (keyEntries k m vs ++ es).head?.filter fun kv => kv.key.key = k) :=
  Ready.ahead_cons rfl

/-- The call for a version of a key that is followed by another one. -/
theorem call_version {k : Key} {m : Option (List UInt8)} {rangeTS : Timestamp} {v w : Version}
    {vs : List Version} (hes : ∀ kv ∈ es.head?, kv.key.key ≠ k) (hv : v.timestamp ≠ {})
    (hw : w.timestamp ≠ {}) (hvs : ∀ x ∈ vs, x.timestamp ≠ {}) :
    GcIteratorState.call ⟨v.entry k, some (w.entry k),
        (keyEntries k m vs ++ es).head?.filter fun kv => kv.key.key = k, rangeTS⟩ threshold =
      .ok ⟨v.entry k,
        verdict threshold rangeTS v (if vs = [] ∧ m.isSome then none else some w), false⟩ := by
  cases vs with
  | cons x vs =>
    have hhead : ((keyEntries k m (x :: vs) ++ es).head?.filter fun kv => kv.key.key = k) =
        some (x.entry k) := by
      simp [keyEntries, Option.filter, Version.entry]
    rw [hhead, if_neg fun h => by cases h.1]
    refine call_older hv hw fun kv hkv => ?_
    cases hkv
    exact entry_isValue (hvs x mem_cons_self)
  | nil =>
    cases m with
    | some value =>
      have hhead : ((keyEntries k (some value) [] ++ es).head?.filter
          fun kv => kv.key.key = k) = some (metaEntry k value) := by
        simp [keyEntries, Option.filter, metaEntry]
      rw [hhead, if_pos ⟨rfl, rfl⟩]
      exact call_under_intent hv hw value
    | none =>
      rw [if_neg fun h => by cases h.2]
      refine call_older hv hw fun kv hkv => ?_
      obtain ⟨hkv, hkey⟩ := Option.filter_eq_some_iff.mp hkv
      exact absurd (of_decide_eq_true hkey) (hes kv hkv)

/-- The loop over the entries of a key makes the calls for it. -/
theorem loop_key {k : Key} {m : Option (List UInt8)} (hes : ∀ kv ∈ es.head?, kv.key.key ≠ k) :
    ∀ {vs : List Version} {it : GcIterator} {n : Nat}, (∀ v ∈ vs, v.timestamp ≠ {}) →
      Ready c threshold (keyEntries k m vs ++ es) it → (keyEntries k m vs ++ es).length < n →
      ∃ it' n', Ready c threshold es it' ∧ es.length < n' ∧ ∀ b, loop found stop n it b =
        (keyCalls threshold (c.rangeTS threshold k) k m vs).foldlM found b >>=
          loop found stop n' it' := by
  have hend : ∀ cur : MvccKeyValue, cur.key.key = k → Ready.ahead cur es = (none, none) := by
    intro cur hcur
    unfold Ready.ahead
    cases es with
    | nil => rfl
    | cons kv es => exact if_neg (by rw [hcur]; exact hes kv rfl)
  -- The last call for the key.
  have hlast : ∀ {it : GcIterator} {n : Nat} {call : Call}, es.length < n →
      (∃ it', Ready c threshold es it' ∧
        ∀ b, loop found stop (n + 1) it b = found b call >>= loop found stop n it') →
      ∃ it' n', Ready c threshold es it' ∧ es.length < n' ∧
        ∀ b, loop found stop (n + 1) it b = [call].foldlM found b >>= loop found stop n' it' := by
    rintro it n call hn ⟨it', hready, hloop⟩
    refine ⟨it', n, hready, hn, fun b => ?_⟩
    rw [hloop, foldlM_cons]
    simp only [foldlM_nil, bind_pure]
  intro vs
  induction vs with
  | nil =>
    intro it n _ h hn
    cases m with
    | none => exact ⟨it, n, h, hn, fun _ => rfl⟩
    | some value =>
      obtain ⟨n, rfl⟩ : ∃ n', n = n' + 1 := ⟨n - 1, by omega⟩
      change Ready c threshold (metaEntry k value :: es) it at h
      exact hlast (Nat.lt_of_succ_lt_succ hn)
        (loop_round found stop h (call_meta value _ _) rfl n)
  | cons v vs ih =>
    intro it n hv h hn
    obtain ⟨n, rfl⟩ : ∃ n', n = n' + 1 := ⟨n - 1, by omega⟩
    have hv₀ := hv v mem_cons_self
    cases vs with
    | nil =>
      cases m with
      | none =>
        change Ready c threshold (v.entry k :: es) it at h
        have hah := hend (v.entry k) rfl
        exact hlast (Nat.lt_of_succ_lt_succ hn) (loop_round found stop h
          (by rw [hah]; exact call_newest hv₀) (by rw [hah]; simp) n)
      | some value =>
        change Ready c threshold (v.entry k :: metaEntry k value :: es) it at h
        exact hlast (Nat.lt_of_succ_lt (Nat.lt_of_succ_lt_succ hn))
          (loop_round_intent found stop hv₀ h n)
    | cons w vs =>
      have hw₀ := hv w (mem_cons_of_mem _ mem_cons_self)
      change Ready c threshold (v.entry k :: (keyEntries k m (w :: vs) ++ es)) it at h
      have hcall : GcIteratorState.call ⟨v.entry k,
          (Ready.ahead (v.entry k) (keyEntries k m (w :: vs) ++ es)).1,
          (Ready.ahead (v.entry k) (keyEntries k m (w :: vs) ++ es)).2,
          c.rangeTS threshold (v.entry k).key.key⟩ threshold =
          .ok ⟨v.entry k, verdict threshold (c.rangeTS threshold k) v
            (if vs = [] ∧ m.isSome then none else some w), false⟩ := by
        rw [ahead_version]
        exact call_version hes hv₀ hw₀ fun x hx =>
          hv x (mem_cons_of_mem _ (mem_cons_of_mem _ hx))
      have hno : ((v.entry k).key.isValue &&
          (Ready.ahead (v.entry k) (keyEntries k m (w :: vs) ++ es)).1.any
            fun kv => !kv.key.isValue) = false := by
        rw [ahead_version]
        simp [entry_isValue hw₀]
      obtain ⟨it₁, hready₁, hloop₁⟩ := loop_round found stop h hcall hno n
      obtain ⟨it', n', hready, hlen, hloop⟩ := ih (fun u hu => hv u (mem_cons_of_mem _ hu))
        hready₁ (n := n) (by
          change (keyEntries k m (w :: vs) ++ es).length + 1 < n + 1 at hn
          omega)
      refine ⟨it', n', hready, hlen, fun b => ?_⟩
      rw [hloop₁ b]
      show _ = (found b _ >>= fun b => (keyCalls threshold _ k m (w :: vs)).foldlM found b) >>= _
      rw [bind_assoc]
      exact bind_congr fun b' => hloop b'

/-- The loop over the entries of several keys. -/
theorem loop_keys {ks : List (Key × Stored)} (hsorted : ks.Pairwise fun p q => q.1 < p.1)
    (hvalid : ∀ p ∈ ks, p.2.Valid) {n : Nat}
    (h : Ready c threshold (ks.flatMap fun p => p.2.entries p.1) it)
    (hn : (ks.flatMap fun p => p.2.entries p.1).length < n) (b : σ) :
    loop found stop n it b = (ks.flatMap fun p => keyCalls threshold (c.rangeTS threshold p.1) p.1
      p.2.metaValue p.2.versions.reverse).foldlM found b := by
  induction ks generalizing it n b with
  | nil =>
    obtain ⟨n, rfl⟩ : ∃ n', n = n' + 1 := ⟨n - 1, by simp at hn; omega⟩
    obtain ⟨it', hstate, herr⟩ := Ready.state_nil h
    unfold loop
    rw [hstate]
    dsimp only
    rw [herr]
    rfl
  | cons p ks ih =>
    obtain ⟨hlt, hsorted⟩ := pairwise_cons.mp hsorted
    rw [flatMap_cons] at h hn ⊢
    have hhead : ∀ kv ∈ (ks.flatMap fun q => q.2.entries q.1).head?, kv.key.key ≠ p.1 := by
      intro kv hkv
      obtain ⟨q, hq, hmem⟩ := mem_flatMap.mp (mem_of_mem_head? hkv)
      have hkey : kv.key.key = q.1 := by
        rcases mem_append.mp hmem with hmem | hmem
        · obtain ⟨v, -, rfl⟩ := mem_map.mp hmem
          rfl
        · obtain ⟨value, -, rfl⟩ := mem_map.mp hmem
          rfl
      rw [hkey]
      exact (hlt q hq).ne
    have hstamped : ∀ v ∈ p.2.versions.reverse, v.timestamp ≠ {} := fun v hv =>
      (hvalid p mem_cons_self).stamped v (mem_reverse.mp hv)
    obtain ⟨it', n', hready, hlen, hloop⟩ := loop_key found stop hhead hstamped h hn
    rw [hloop b, foldlM_append]
    exact bind_congr fun b' =>
      ih hsorted (fun q hq => hvalid q (mem_cons_of_mem _ hq)) hready hlen b'

/-- Over a listing of a range the loop ends, after the calls for the range. -/
theorem loop_eq (h : Listing c ps) (b : σ) :
    loop found stop (ps.length + 1) { it := ps, threshold } b =
      (c.calls threshold).foldlM found b := by
  refine loop_keys found stop (pairwise_reverse.mpr c.sorted)
    (fun p hp => c.valid p (mem_reverse.mp hp)) h.ready ?_ b
  show c.entries.length < _
  rw [← h.points]
  exact Nat.lt_succ_of_le (length_filterMap_le _ _)

end Loop

theorem calls_eq (h : Listing c ps) : calls threshold ps = .ok (c.calls threshold) := by
  have hall : ∀ cs cs' : List Call,
      cs.foldlM (fun cs c => (.ok (cs ++ [c]) : Except Stop (List Call))) cs' =
        .ok (cs' ++ cs) := by
    intro cs
    induction cs with
    | nil =>
      intro cs'
      rw [append_nil]
      rfl
    | cons c cs ih =>
      intro cs'
      rw [foldlM_cons]
      show cs.foldlM _ (cs' ++ [c]) = _
      rw [ih, append_assoc]
      rfl
  unfold calls
  rw [loop_eq _ _ h, hall]
  rfl

end Cockroach.Gc
