import Cockroach.Raft.Log

/-!
# Reading and splicing log slices

A log slice is also the right picture of a whole raft log: the id before the
first entry, the entries, and the term of the leader it follows. The lemmas
here say what `valid`, `forward` and `termAt` compute, and `splice` is the one
way a log changes: everything after a position is replaced by a newer slice.
-/

namespace Cockroach.Raft

open List

namespace LogSlice

variable {s a : LogSlice} {i j k : Nat}

/-- The id of the last of `es`, or `p` when there is none. -/
def lastID (p : EntryID) (es : List Entry) : EntryID :=
  match es.getLast? with
  | some e => pbEntryID e
  | none => p

/-- Consecutive indices and non-decreasing terms, starting after `p`. -/
def Chained : EntryID → List Entry → Prop
  | _, [] => True
  | p, e :: es => p.term ≤ e.term ∧ e.index = p.index + 1 ∧ Chained (pbEntryID e) es

theorem lastID_cons (p : EntryID) (e : Entry) (es : List Entry) :
    lastID p (e :: es) = lastID (pbEntryID e) es := by
  cases es with
  | nil => rfl
  | cons f fs => simp [lastID, getLast?_cons]

theorem lastEntryID_eq (s : LogSlice) : s.lastEntryID = lastID s.prev s.entries := rfl

theorem validFrom_iff {t : Nat} : ∀ {p : EntryID} {es : List Entry},
    validFrom t p es = true ↔ Chained p es ∧ (lastID p es).term ≤ t
  | p, [] => by simp [validFrom, Chained, lastID]
  | p, e :: es => by
    rw [lastID_cons]
    simp [validFrom, Chained, @validFrom_iff t (pbEntryID e) es, and_assoc]

theorem valid_iff : s.valid = true ↔ Chained s.prev s.entries ∧ s.lastEntryID.term ≤ s.term :=
  validFrom_iff

theorem chained_append : ∀ {p : EntryID} {xs ys : List Entry},
    Chained p (xs ++ ys) ↔ Chained p xs ∧ Chained (lastID p xs) ys
  | p, [], ys => by simp [Chained, lastID]
  | p, x :: xs, ys => by
    rw [lastID_cons]
    simp [Chained, @chained_append (pbEntryID x) xs ys, and_assoc]

theorem Chained.index : ∀ {p : EntryID} {es : List Entry}, Chained p es →
    ∀ {n : Nat} {e : Entry}, es[n]? = some e → e.index = p.index + 1 + n
  | _, [], _, _, _, h => by simp at h
  | p, x :: xs, hc, 0, e, h => by
    have hx : x = e := by simpa using h
    rw [← hx, hc.2.1]
  | p, x :: xs, hc, n + 1, e, h => by
    have he := hc.2.2.index (by simpa using h)
    rw [he]
    simp only [pbEntryID, hc.2.1]
    omega

variable {p : EntryID}

theorem Chained.drop {es : List Entry} (hc : Chained p es) (n : Nat) :
    Chained (lastID p (es.take n)) (es.drop n) := by
  have h := hc
  rw [← take_append_drop n es, chained_append] at h
  exact h.2

theorem Chained.take {es : List Entry} (hc : Chained p es) (n : Nat) : Chained p (es.take n) := by
  have h := hc
  rw [← take_append_drop n es, chained_append] at h
  exact h.1

theorem lastID_append {xs ys : List Entry} : lastID p (xs ++ ys) = lastID (lastID p xs) ys := by
  cases hy : ys.getLast? with
  | none =>
    have : ys = [] := getLast?_eq_none_iff.mp hy
    simp [this, lastID]
  | some e => simp [lastID, getLast?_append, hy]

/-- The id at position `i` is the last one of the entries up to it. -/
theorem lastID_take (hc : Chained s.prev s.entries) (hi : s.prev.index ≤ i) (hl : i ≤ s.lastIndex) :
    lastID s.prev (s.entries.take (i - s.prev.index)) = ⟨s.termAt i, i⟩ := by
  by_cases h : i = s.prev.index
  · subst h
    simp [lastID, termAt]
  · have hlt : i - s.prev.index - 1 < s.entries.length := by
      unfold lastIndex at hl; omega
    have hlen : (s.entries.take (i - s.prev.index)).length = i - s.prev.index := by
      unfold lastIndex at hl; simp; omega
    have hlast : (s.entries.take (i - s.prev.index)).getLast? =
        s.entries[i - s.prev.index - 1]? := by
      rw [getLast?_eq_getElem?, hlen, getElem?_take_of_lt (by omega)]
    have hget : s.entries[i - s.prev.index - 1]? = some s.entries[i - s.prev.index - 1] :=
      getElem?_eq_getElem hlt
    have hidx := hc.index hget
    simp only [lastID, hlast, hget, pbEntryID, termAt, h, if_false, getD_eq_getElem?_getD,
      Option.getD_some, EntryID.mk.injEq, true_and]
    omega

theorem lastEntryID_of_chained (hc : Chained s.prev s.entries) :
    s.lastEntryID = ⟨s.termAt s.lastIndex, s.lastIndex⟩ := by
  have h := lastID_take hc (i := s.lastIndex) (by simp [lastIndex]) le_rfl
  rw [lastEntryID_eq, ← h, take_of_length_le (by simp [lastIndex])]

@[simp] theorem forward_term : (s.forward i).term = s.term := rfl

theorem forward_self (s : LogSlice) : s.forward s.prev.index = s := by
  simp [forward, termAt]

section

variable (hi : s.prev.index ≤ i)
include hi

theorem lastIndex_forward (hl : i ≤ s.lastIndex) : (s.forward i).lastIndex = s.lastIndex := by
  simp only [lastIndex, forward, length_drop] at *
  omega

theorem termAt_forward (hj : i ≤ j) : (s.forward i).termAt j = s.termAt j := by
  by_cases h : j = i
  · subst h
    simp [termAt, forward]
  · have hne : j ≠ s.prev.index := by omega
    have hidx : i - s.prev.index + (j - i - 1) = j - s.prev.index - 1 := by omega
    simp only [termAt, forward, h, hne, if_false, getD_eq_getElem?_getD, getElem?_drop, hidx]

theorem forward_forward (hj : i ≤ j) : (s.forward i).forward j = s.forward j := by
  have ht := termAt_forward (s := s) hi hj
  have hidx : i - s.prev.index + (j - i) = j - s.prev.index := by omega
  simp only [forward, LogSlice.mk.injEq, EntryID.mk.injEq, true_and]
  simp only [forward] at ht
  exact ⟨⟨ht, trivial⟩, by rw [drop_drop, hidx]⟩

end

theorem lastEntryID_forward (hc : Chained s.prev s.entries) (hi : s.prev.index ≤ i)
    (hl : i ≤ s.lastIndex) : (s.forward i).lastEntryID = s.lastEntryID := by
  have hsplit := @lastID_append s.prev (s.entries.take (i - s.prev.index))
    (s.entries.drop (i - s.prev.index))
  rw [take_append_drop, lastID_take hc hi hl] at hsplit
  rw [lastEntryID_eq, lastEntryID_eq, hsplit]
  rfl

theorem chained_forward (hc : Chained s.prev s.entries) (hi : s.prev.index ≤ i)
    (hl : i ≤ s.lastIndex) : Chained (s.forward i).prev (s.forward i).entries := by
  have h := hc.drop (i - s.prev.index)
  rwa [lastID_take hc hi hl] at h

theorem valid_forward (hv : s.valid = true) (hi : s.prev.index ≤ i) (hl : i ≤ s.lastIndex) :
    (s.forward i).valid = true := by
  obtain ⟨hc, ht⟩ := valid_iff.mp hv
  rw [valid_iff, lastEntryID_forward hc hi hl]
  exact ⟨chained_forward hc hi hl, ht⟩

/-- `s` with everything after `a.prev` replaced by `a`. -/
def splice (s a : LogSlice) : LogSlice where
  term := a.term
  prev := s.prev
  entries := s.entries.take (a.prev.index - s.prev.index) ++ a.entries

/-- `a` attaches to `s`: its first id is an entry of `s`. -/
structure Attaches (a s : LogSlice) : Prop where
  lower : s.prev.index ≤ a.prev.index
  upper : a.prev.index ≤ s.lastIndex
  term : s.termAt a.prev.index = a.prev.term

@[simp] theorem splice_term : (s.splice a).term = a.term := rfl

@[simp] theorem splice_prev : (s.splice a).prev = s.prev := rfl

theorem lastIndex_splice (h : a.Attaches s) : (s.splice a).lastIndex = a.lastIndex := by
  have := h.lower
  have := h.upper
  simp only [lastIndex, splice, length_append, length_take] at *
  omega

/-- Up to the point of attachment a splice changes nothing. -/
theorem take_splice (h : a.Attaches s) (hk : k ≤ a.prev.index) :
    (s.splice a).entries.take (k - s.prev.index) = s.entries.take (k - s.prev.index) := by
  have := h.lower
  have := h.upper
  have hlen : k - s.prev.index ≤ (s.entries.take (a.prev.index - s.prev.index)).length := by
    simp only [lastIndex, length_take] at *; omega
  simp only [splice, take_append_of_le_length hlen, take_take]
  congr 1
  omega

/-- Slices that agree on their first entries agree on the terms there. -/
theorem termAt_congr {s' : LogSlice} (hp : s'.prev = s.prev) (hlo : s.prev.index ≤ i) (hi : i ≤ k)
    (h : s'.entries.take (k - s.prev.index) = s.entries.take (k - s.prev.index)) :
    s'.termAt i = s.termAt i := by
  simp only [termAt, hp]
  split
  · rfl
  · have hlt : i - s.prev.index - 1 < k - s.prev.index := by omega
    have := congrArg (fun l : List Entry => l[i - s.prev.index - 1]?) h
    simp only [getElem?_take_of_lt hlt] at this
    simp only [getD_eq_getElem?_getD, this]

theorem termAt_splice (h : a.Attaches s) (hlo : s.prev.index ≤ i) (hi : i ≤ a.prev.index) :
    (s.splice a).termAt i = s.termAt i :=
  termAt_congr rfl hlo hi (take_splice h le_rfl)

/-- After the point of attachment a splice is the new slice. -/
theorem forward_splice (h : a.Attaches s) : (s.splice a).forward a.prev.index = a := by
  have hterm := termAt_splice h h.lower le_rfl
  have hlen : (s.entries.take (a.prev.index - s.prev.index)).length =
      a.prev.index - s.prev.index := by
    have := h.lower
    have := h.upper
    simp only [lastIndex, length_take] at *; omega
  simp only [forward, hterm, h.term, splice_term, splice_prev]
  rw [splice, drop_left' hlen]

/-- Before it, the slice from `i` on is spliced itself. -/
theorem forward_splice_of_le (h : a.Attaches s) (hlo : s.prev.index ≤ i)
    (hi : i ≤ a.prev.index) : (s.splice a).forward i = (s.forward i).splice a := by
  have hterm := termAt_splice h hlo hi
  have hlen : i - s.prev.index ≤ (s.entries.take (a.prev.index - s.prev.index)).length := by
    have := h.upper
    simp only [lastIndex, length_take] at *; omega
  have hidx : a.prev.index - s.prev.index - (i - s.prev.index) = a.prev.index - i := by omega
  simp only [forward, splice, LogSlice.mk.injEq, EntryID.mk.injEq, and_true, true_and]
  refine ⟨hterm, ?_⟩
  rw [drop_append_of_le_length hlen, drop_take, hidx]

theorem chained_splice (hs : Chained s.prev s.entries) (ha : Chained a.prev a.entries)
    (h : a.Attaches s) : Chained (s.splice a).prev (s.splice a).entries := by
  rw [splice_prev, splice, chained_append, lastID_take hs h.lower h.upper, h.term]
  exact ⟨hs.take _, ha⟩

theorem lastEntryID_splice (hs : Chained s.prev s.entries) (h : a.Attaches s) :
    (s.splice a).lastEntryID = a.lastEntryID := by
  rw [lastEntryID_eq, lastEntryID_eq, splice_prev, splice, lastID_append,
    lastID_take hs h.lower h.upper, h.term]

theorem valid_splice (hs : s.valid = true) (ha : a.valid = true) (h : a.Attaches s) :
    (s.splice a).valid = true := by
  have hcs := (valid_iff.mp hs).1
  obtain ⟨hca, hta⟩ := valid_iff.mp ha
  rw [valid_iff, lastEntryID_splice hcs h]
  exact ⟨chained_splice hcs hca h, hta⟩

/-- The term at `i`, or why a log that keeps only this slice cannot tell it. -/
def readTerm (s : LogSlice) (i : Nat) : Except StorageErr Nat :=
  if i < s.prev.index then .error .compacted
  else if i > s.lastIndex then .error .unavailable
  else .ok (s.termAt i)

/-- The entries at `[lo, hi)`. -/
def readEntries (s : LogSlice) (lo hi : Nat) : List Entry :=
  (s.entries.drop (lo - s.prev.index - 1)).take (hi - lo)

theorem readEntries_append {mid : Nat} {lo hi : Nat} (hlo : lo ≤ mid) (hhi : mid ≤ hi)
    (h0 : s.prev.index < lo) :
    s.readEntries lo hi = s.readEntries lo mid ++ s.readEntries mid hi := by
  have hsum : hi - lo = (mid - lo) + (hi - mid) := by omega
  have hdrop : lo - s.prev.index - 1 + (mid - lo) = mid - s.prev.index - 1 := by omega
  rw [readEntries, readEntries, readEntries, hsum, take_add, drop_drop, hdrop]

theorem getElem?_readEntries {lo hi n : Nat} {e : Entry} (h : (s.readEntries lo hi)[n]? = some e) :
    s.entries[lo - s.prev.index - 1 + n]? = some e ∧ n < hi - lo := by
  rw [readEntries, getElem?_take] at h
  split_ifs at h with hn
  rw [getElem?_drop] at h
  exact ⟨h, hn⟩

theorem length_readEntries {lo hi : Nat} (h0 : s.prev.index < lo) (hhi : hi ≤ s.lastIndex + 1) :
    (s.readEntries lo hi).length = hi - lo := by
  simp only [lastIndex, readEntries, length_take, length_drop] at *
  omega

/-- The slice has the entry `id`. -/
def holds (s : LogSlice) (id : EntryID) : Bool :=
  match s.readTerm id.index with
  | .ok t => t == id.term
  | .error _ => false

theorem holds_iff {id : EntryID} : s.holds id = true ↔
    s.prev.index ≤ id.index ∧ id.index ≤ s.lastIndex ∧ s.termAt id.index = id.term := by
  unfold holds readTerm
  by_cases h1 : id.index < s.prev.index
  · simp only [h1, if_true, Bool.false_eq_true, false_iff, not_and]
    omega
  by_cases h2 : id.index > s.lastIndex
  · simp only [h1, h2, if_true, if_false, Bool.false_eq_true, false_iff, not_and]
    omega
  · have h3 : s.prev.index ≤ id.index := by omega
    have h4 : id.index ≤ s.lastIndex := by omega
    simp [h1, h2, h3, h4]

/-- The last index up to which the entries `es`, which follow index `m`, are in
the slice already. -/
def overlap (s : LogSlice) : Nat → List Entry → Nat
  | m, [] => m
  | m, e :: es => if s.holds (pbEntryID e) then s.overlap e.index es else m

theorem overlap_bounds : ∀ {p : EntryID} {es : List Entry}, Chained p es → s.holds p = true →
    p.index ≤ s.overlap p.index es ∧ s.overlap p.index es ≤ p.index + es.length ∧
      s.holds (lastID p (es.take (s.overlap p.index es - p.index))) = true
  | p, [], _, hp => by simpa [overlap, lastID] using hp
  | p, e :: es, hc, hp => by
    by_cases he : s.holds (pbEntryID e) = true
    · have hidx : e.index = p.index + 1 := hc.2.1
      obtain ⟨h1, h2, h3⟩ := overlap_bounds hc.2.2 he
      simp only [pbEntryID] at h1 h2 h3
      simp only [overlap, he, if_true, length_cons]
      have hsub : s.overlap e.index es - p.index = s.overlap e.index es - e.index + 1 := by
        omega
      refine ⟨by omega, by omega, ?_⟩
      rw [hsub, take_succ_cons, lastID_cons]
      exact h3
    · simpa [overlap, he, lastID] using hp

/-- The entry after the overlap is not in the slice. -/
theorem overlap_next : ∀ {p : EntryID} {es : List Entry}, Chained p es →
    ∀ {e : Entry}, (es.drop (s.overlap p.index es - p.index)).head? = some e →
      s.holds (pbEntryID e) = false
  | _, [], _, _, h => by simp at h
  | p, x :: xs, hc, e, h => by
    by_cases hx : s.holds (pbEntryID x) = true
    · have hidx : x.index = p.index + 1 := hc.2.1
      have hge : x.index ≤ s.overlap x.index xs := (overlap_bounds hc.2.2 hx).1
      simp only [overlap, hx, if_true] at h
      have hsub : s.overlap x.index xs - p.index = s.overlap x.index xs - x.index + 1 := by
        omega
      rw [hsub, drop_succ_cons] at h
      exact overlap_next hc.2.2 h
    · have hxe : x = e := by simpa [overlap, hx] using h
      rw [← hxe]
      simpa using hx

/-- What an append of `a` makes of the log `s`: nothing when `a` does not attach
or is out of date, and otherwise `s` with the entries that differ replaced. -/
def merge (s a : LogSlice) : Option LogSlice :=
  if s.holds a.prev then
    let b := a.forward (s.overlap a.prev.index a.entries)
    if b.entries = [] then some s
    else if b.term < s.term ∨ b.term = s.term ∧ b.prev.index < s.lastIndex then none
    else some (s.splice b)
  else none

theorem merge_prev {s a s' : LogSlice} (h : s.merge a = some s') : s'.prev = s.prev := by
  unfold merge at h
  dsimp only at h
  split_ifs at h
  · rw [← Option.some.inj h]
  · rw [← Option.some.inj h]
    rfl

/-- The part of `a` that is new to `s` attaches to it. -/
theorem attaches_overlap (ha : Chained a.prev a.entries) (hp : s.holds a.prev = true) :
    (a.forward (s.overlap a.prev.index a.entries)).Attaches s ∧
      a.prev.index ≤ s.overlap a.prev.index a.entries ∧
      s.overlap a.prev.index a.entries ≤ a.lastIndex := by
  obtain ⟨h1, h2, h3⟩ := overlap_bounds ha hp
  rw [lastID_take ha h1 h2, holds_iff] at h3
  exact ⟨⟨h3.1, h3.2.1, h3.2.2⟩, h1, h2⟩

end LogSlice

end Cockroach.Raft
