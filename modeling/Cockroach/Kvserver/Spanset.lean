import Cockroach.Roachpb.MergeSpans

/-!
# Declared spans (`pkg/kv/kvserver/spanset`)

A request declares the keys that it accesses, with the timestamps of the accesses. Sorting
and merging the declared spans is a copy of `roachpb.MergeSpans` that keeps spans of different
timestamps apart.

* `spanSet_declares`: `SortAndDedup` and `Merge` keep what is declared at every timestamp,
  unless a single key follows a range of another timestamp that ends at it, or a key whose end
  key is empty and not nil follows a range of its own timestamp that ends at it.
* `spanSet_extends`: a range that ends at a key of another timestamp is extended by it.
-/

namespace Cockroach.Spanset

open Storage Hlc Roachpb List

/-- `spanset.Span`. -/
structure Span extends RawSpan where
  timestamp : Timestamp := {}
  deriving DecidableEq, Repr, Inhabited

inductive SpanAccess
  | readOnly
  | readWrite
  deriving DecidableEq, Repr

inductive SpanScope
  | global
  | locals
  deriving DecidableEq, Repr

/-- `spanset.SpanSet`. -/
structure SpanSet where
  spans : SpanAccess → SpanScope → List Span := fun _ _ => []
  allowUndeclared : Bool := false

/-- One round of the loop of `mergeSpans`: the last span, and whether the next one is appended
to it. -/
def mergeStep (prev cur : Span) : Span × Bool :=
  let apart := decide (cur.timestamp ≠ prev.timestamp)
  let longer := { prev with endKey := cur.endKey }
  if cur.toSpan.endKey = [] ∧ prev.toSpan.endKey = [] then
    if cur.key ≠ prev.key then (prev, true) else (prev, apart)
  else if prev.toSpan.endKey = [] then
    if cur.key = prev.key then (if apart then prev else longer, apart) else (prev, true)
  else if cur.key ≤ prev.toSpan.endKey then
    if cur.endKey ≠ none then
      if prev.toSpan.endKey < cur.toSpan.endKey then (if apart then prev else longer, apart)
      else (prev, apart)
    else if prev.toSpan.endKey = cur.key then
      -- also if the next span is appended for its timestamp
      ({ prev with endKey := some cur.key.next }, apart)
    else (prev, apart)
  else (prev, true)

/-- The loop of `mergeSpans`, over sorted spans. -/
def mergeSorted : Span → List Span → List Span
  | prev, [] => [prev]
  | prev, cur :: rest =>
    match mergeStep prev cur with
    | (prev, true) => prev :: mergeSorted cur rest
    | (prev, false) => mergeSorted prev rest

section Code

variable (o : Sorter Span (·.toSpan))

/-- `mergeSpans`, without the flag that no caller reads. -/
def mergeSpans (latches : List Span) : List Span :=
  match o.sort latches with
  | [] => []
  | first :: rest => mergeSorted first rest

/-- `SpanSet.SortAndDedup`. -/
def SpanSet.sortAndDedup (s : SpanSet) : SpanSet :=
  { s with spans := fun sa ss => mergeSpans o (s.spans sa ss) }

/-- `SpanSet.Merge`. -/
def SpanSet.merge (s s2 : SpanSet) : SpanSet :=
  sortAndDedup o
    { spans := fun sa ss => s.spans sa ss ++ s2.spans sa ss
      allowUndeclared := s2.allowUndeclared }

end Code

/-- The keys that are declared at a timestamp. -/
def Declares (l : List Span) (t : Timestamp) (k : Key) : Prop :=
  ∃ s ∈ l, s.timestamp = t ∧ k ∈ s.toSpan

/-- The spans of the timestamp `t` right before a span, of those before it. -/
def runOf (t : Timestamp) (before : List Span) : List RawSpan :=
  (before.rtakeWhile (·.timestamp = t)).map Span.toRawSpan

/-- `cur` gets lost: its end key is empty and not nil, and a range of its timestamp, right
before it, ends at it. -/
def Lost (before : List Span) (cur : Span) : Prop :=
  Dropped (runOf cur.timestamp before) cur.toRawSpan

/-- `cur` is a single key, and a range of another timestamp `t`, right before it, ends at it.
The range is then extended by the key. -/
def Extends (t : Timestamp) (before : List Span) (cur : Span) : Prop :=
  cur.endKey = none ∧ cur.timestamp ≠ t ∧ EndsAt (runOf t before) cur.key

/-- What is declared on behalf of `cur`. -/
def Adds (t : Timestamp) (k : Key) (before : List Span) (cur : Span) : Prop :=
  (cur.timestamp = t ∧ k ∈ cur.toSpan) ∧ ¬ Lost before cur ∨ Extends t before cur ∧ k = cur.key

/-- Of sorted spans, every range is extended by keys only that are declared at its timestamp
anyway, and what gets lost is declared on behalf of another span. -/
def Clean (l : List Span) : Prop :=
  ∀ p c q, l = p ++ c :: q → (∀ t, Extends t p c → Declares l t c.key) ∧
    (Lost p c → ∃ p' c' q', l = p' ++ c' :: q' ∧ Adds c.timestamp c.key p' c')

section Merge

variable {prev cur : Span} {before l : List Span} {t : Timestamp} {k : Key}

theorem declares_cons :
    Declares (cur :: l) t k ↔ cur.timestamp = t ∧ k ∈ cur.toSpan ∨ Declares l t k := by
  unfold Declares
  simp only [mem_cons, or_and_right, exists_or, exists_eq_left]

theorem runOf_snoc_self :
    runOf cur.timestamp (before ++ [cur]) = runOf cur.timestamp before ++ [cur.toRawSpan] := by
  unfold runOf
  rw [rtakeWhile_concat_pos _ _ _ (by simp), map_append]
  rfl

theorem runOf_snoc_of_ne (h : cur.timestamp ≠ t) : runOf t (before ++ [cur]) = [] := by
  unfold runOf
  rw [rtakeWhile_concat_neg _ _ _ (by simpa using h), map_nil]

/-- Spans of one timestamp are merged as `roachpb.MergeSpans` merges them. -/
theorem mergeStep_same (h : cur.timestamp = prev.timestamp) : mergeStep prev cur =
    match (mergeInto prev.toRawSpan cur.toRawSpan).1 with
    | some merged => ({ prev with toRawSpan := merged }, false)
    | none => (prev, true) := by
  unfold mergeStep mergeInto
  simp only [h, ne_eq, not_true, decide_false, Bool.false_eq_true, if_false]
  split_ifs <;> rfl

/-- Spans of two timestamps are kept apart, but a key is added to a range that ends at it. -/
theorem mergeStep_apart (h : cur.timestamp ≠ prev.timestamp) : mergeStep prev cur =
    (if cur.endKey = none ∧ prev.Ranged ∧ prev.toSpan.endKey = cur.key then
      { prev with endKey := some cur.key.next } else prev, true) := by
  have hend := cur.endKey_eq_nil
  unfold mergeStep RawSpan.Ranged
  simp only [h, ne_eq, not_false_eq_true, decide_true]
  split_ifs <;> grind

theorem mem_extended (hp : prev.Ranged) (hend : prev.toSpan.endKey = cur.key)
    (hkey : prev.key ≤ cur.key) :
    k ∈ (⟨prev.key, some cur.key.next⟩ : RawSpan).toSpan ↔ k ∈ prev.toSpan ∨ k = cur.key := by
  have hnext : k < cur.key.next ↔ k ≤ cur.key := Lib.lt_append_zero_iff
  have hrange : (⟨prev.key, some cur.key.next⟩ : RawSpan).Ranged := Span.next_ne_nil _
  rw [hrange.mem_iff, hp.mem_iff, hend]
  show prev.key ≤ k ∧ k < cur.key.next ↔ _
  rw [hnext, @le_iff_lt_or_eq _ _ k, and_or_left]
  refine or_congr_right (and_iff_right_of_imp ?_)
  rintro rfl
  exact hkey

section Last

variable (h : LastOf (runOf prev.timestamp before) prev.toRawSpan)
  (hrun : ∀ t, t ≠ prev.timestamp → runOf t before = []) (hkey : prev.key ≤ cur.key)

include h hrun hkey

theorem adds_same (ht : cur.timestamp = prev.timestamp) : Adds t k before cur ↔
    (cur.timestamp = t ∧ k ∈ cur.toSpan) ∧ ¬ Drops prev.toRawSpan cur.toRawSpan := by
  have hextends : ¬ Extends t before cur := by
    rintro ⟨-, hne, hend⟩
    rw [hrun t (ht ▸ hne.symm)] at hend
    exact not_endsAt_nil hend
  unfold Adds Lost
  rw [or_iff_left fun h => hextends h.1, ht, h.drops_iff hkey]

theorem adds_apart (ht : cur.timestamp ≠ prev.timestamp) : Adds t k before cur ↔
    (prev.timestamp = t ∧ k = cur.key) ∧
      (cur.endKey = none ∧ prev.Ranged ∧ prev.toSpan.endKey = cur.key) ∨
    cur.timestamp = t ∧ k ∈ cur.toSpan := by
  have hlost : ¬ Lost before cur := by
    unfold Lost
    rw [hrun _ ht]
    exact fun hdrop => not_endsAt_nil hdrop.2
  unfold Adds Extends
  rw [and_iff_left hlost, h.endKey_eq_iff hkey, or_comm]
  refine or_congr_left ⟨?_, ?_⟩
  · rintro ⟨⟨hnil, -, hend⟩, hk⟩
    by_cases htp : t = prev.timestamp
    · exact ⟨⟨htp.symm, hk⟩, hnil, htp ▸ hend⟩
    · rw [hrun t htp] at hend
      exact absurd hend not_endsAt_nil
  · rintro ⟨⟨rfl, hk⟩, hnil, hend⟩
    exact ⟨⟨hnil, ht, hend⟩, hk⟩

end Last

/-- The last span stands for the run of its timestamp, and what is declared is that of the
spans that are not lost and of the ranges that are extended. -/
theorem declares_mergeSorted (h : LastOf (runOf prev.timestamp before) prev.toRawSpan)
    (hrun : ∀ t, t ≠ prev.timestamp → runOf t before = [])
    (hord : ∀ s ∈ l, s.toSpan.Ordered) (hsort : (prev :: l).Pairwise fun s t => s.key ≤ t.key) :
    Declares (mergeSorted prev l) t k ↔ prev.timestamp = t ∧ k ∈ prev.toSpan ∨
      ∃ p c q, l = p ++ c :: q ∧ Adds t k (before ++ p) c := by
  induction l generalizing prev before with
  | nil => simp [mergeSorted, Declares]
  | cons cur rest ih =>
    obtain ⟨hprev, hrest⟩ := pairwise_cons.mp hsort
    obtain ⟨hc, hord⟩ := forall_mem_cons.mp hord
    have hkey := hprev cur mem_cons_self
    have hrun' : ∀ t, t ≠ cur.timestamp → runOf t (before ++ [cur]) = [] :=
      fun t ht => runOf_snoc_of_ne ht.symm
    rw [@exists_split_cons _ (Adds t k)]
    unfold mergeSorted
    by_cases ht : cur.timestamp = prev.timestamp
    · rw [mergeStep_same ht, adds_same h hrun hkey ht]
      cases hm : (mergeInto prev.toRawSpan cur.toRawSpan).1 with
      | none =>
        obtain ⟨hlast, hend⟩ := mergeInto_none hkey hm
        have hdrop : ¬ Drops prev.toRawSpan cur.toRawSpan := fun hd => (hend hd.2.1).ne hd.2.2
        have hpush : LastOf (runOf cur.timestamp (before ++ [cur])) cur.toRawSpan := by
          rw [runOf_snoc_self, ht]
          exact h.push hc hkey hlast hend
        dsimp only
        rw [declares_cons, ih hpush hrun' hord hrest, and_iff_left hdrop]
      | some merged =>
        have hmerged := mergeInto_some h.ordered hc hkey hm
        have hmerge : LastOf (runOf prev.timestamp (before ++ [cur])) merged := by
          rw [← ht, runOf_snoc_self, ht]
          exact h.merge hc hkey hmerged
        dsimp only
        rw [@ih { prev with toRawSpan := merged } (before ++ [cur]) hmerge
          (fun t h => hrun' t (ht ▸ h)) hord (sorted_merged hmerged.key hsort),
          hmerged.mem, ht, and_or_left, or_assoc, and_assoc]
    · have hpush : LastOf (runOf cur.timestamp (before ++ [cur])) cur.toRawSpan := by
        rw [runOf_snoc_self, hrun _ ht]
        exact .single hc
      rw [mergeStep_apart ht, adds_apart h hrun hkey ht]
      dsimp only
      rw [declares_cons, ih hpush hrun' hord hrest]
      split_ifs with hx
      · have hmem := @mem_extended prev cur k hx.2.1 hx.2.2 hkey
        rw [hmem, and_or_left, and_iff_left hx, or_assoc, or_assoc]
      · rw [iff_false_intro hx, and_false, false_or]

variable (o : Sorter Span (·.toSpan))

theorem declares_mergeSpans (hord : ∀ s ∈ l, s.toSpan.Ordered) :
    Declares (mergeSpans o l) t k ↔ ∃ p c q, o.sort l = p ++ c :: q ∧ Adds t k p c := by
  have hperm := o.perm l
  have hsort := o.sorted_key l
  unfold mergeSpans
  cases hs : o.sort l with
  | nil => simp [Declares]
  | cons first rest =>
    rw [hs] at hperm hsort
    have hl : ∀ s ∈ first :: rest, s.toSpan.Ordered := fun s hs => hord s (hperm.mem_iff.mp hs)
    obtain ⟨hfirst, hrest⟩ := forall_mem_cons.mp hl
    have hrun : ∀ t, runOf t [] = [] := fun t => rfl
    have hself : runOf first.timestamp [first] = [first.toRawSpan] :=
      @runOf_snoc_self first []
    have hadds : Adds t k [] first ↔ first.timestamp = t ∧ k ∈ first.toSpan := by
      unfold Adds Lost Extends Dropped
      simp [hrun, not_endsAt_nil]
    have hsplit := @exists_split_cons _ (Adds t k) [] first rest
    rw [hadds] at hsplit
    exact (@declares_mergeSorted first [first] rest t k (hself ▸ .single hfirst)
      (fun t ht => @runOf_snoc_of_ne first [] t ht.symm) hrest hsort).trans hsplit.symm

theorem declares_mergeSpans_iff (hord : ∀ s ∈ l, s.toSpan.Ordered) :
    (∀ t k, Declares (mergeSpans o l) t k ↔ Declares l t k) ↔ Clean (o.sort l) := by
  have hmem : ∀ t k, Declares (o.sort l) t k ↔ Declares l t k := by
    unfold Declares
    simp only [(o.perm l).mem_iff, implies_true]
  simp only [declares_mergeSpans o hord, ← hmem]
  generalize o.sort l = l
  constructor
  · intro h p c q hl
    refine ⟨fun t hx => (h t c.key).mp ⟨p, c, q, hl, .inr ⟨hx, rfl⟩⟩, fun hlost => ?_⟩
    refine (h c.timestamp c.key).mpr ⟨c, hl ▸ mem_append_right _ mem_cons_self, rfl, ?_⟩
    exact (Roachpb.Span.mem_point ((RawSpan.endKey_eq_nil _).mpr (.inr hlost.1))).mpr rfl
  · intro h t k
    constructor
    · rintro ⟨p, c, q, hl, ⟨hk, -⟩ | ⟨hx, rfl⟩⟩
      · exact ⟨c, hl ▸ mem_append_right _ mem_cons_self, hk⟩
      · exact (h p c q hl).1 t hx
    · rintro ⟨c, hc, rfl, hk⟩
      obtain ⟨p, q, hl⟩ := append_of_mem hc
      by_cases hlost : Lost p c
      · have hkey := (Roachpb.Span.mem_point
          ((RawSpan.endKey_eq_nil _).mpr (.inr hlost.1))).mp hk
        exact hkey ▸ (h p c q hl).2 hlost
      · exact ⟨p, c, q, hl, .inl ⟨⟨rfl, hk⟩, hlost⟩⟩

end Merge

/-- `SortAndDedup` keeps what is declared at each timestamp and adds nothing, and neither does
`Merge`, iff the spans are clean in the order that they are sorted to. -/
theorem spanSet_declares (o : Sorter Span (·.toSpan)) (s s2 : SpanSet) (sa : SpanAccess)
    (ss : SpanScope) (hs : ∀ sp ∈ s.spans sa ss, sp.toSpan.Ordered)
    (hs2 : ∀ sp ∈ s2.spans sa ss, sp.toSpan.Ordered) :
    ((∀ t k, Declares ((s.sortAndDedup o).spans sa ss) t k ↔ Declares (s.spans sa ss) t k) ↔
      Clean (o.sort (s.spans sa ss))) ∧
    ((∀ t k, Declares ((s.merge o s2).spans sa ss) t k ↔
        Declares (s.spans sa ss) t k ∨ Declares (s2.spans sa ss) t k) ↔
      Clean (o.sort (s.spans sa ss ++ s2.spans sa ss))) := by
  refine ⟨declares_mergeSpans_iff o hs, ?_⟩
  rw [← declares_mergeSpans_iff o (forall_mem_append.mpr ⟨hs, hs2⟩)]
  refine forall₂_congr fun t k => iff_congr Iff.rfl ?_
  unfold Declares
  simp only [List.mem_append, or_and_right, exists_or]

/-- A range and the key at its end, declared by two requests at one timestamp, and an earlier
key at another one. -/
theorem spanSet_declares_merged :
    let s : SpanSet := ⟨fun _ _ => [⟨⟨[2], some [3]⟩, ⟨1, 0⟩⟩], false⟩
    let s2 : SpanSet := ⟨fun _ _ => [⟨⟨[3], none⟩, ⟨1, 0⟩⟩, ⟨⟨[1], none⟩, ⟨2, 0⟩⟩], false⟩
    ∀ t k, Declares ((s.merge (insertionSorter _) s2).spans .readOnly .global) t k ↔
      Declares (s.spans .readOnly .global) t k ∨ Declares (s2.spans .readOnly .global) t k := by
  intro s s2
  refine (spanSet_declares _ s s2 .readOnly .global ?_ ?_).2.mpr ?_
  · unfold Roachpb.Span.Ordered
    decide
  · unfold Roachpb.Span.Ordered
    decide
  · have hsort : (insertionSorter fun sp : Span => sp.toSpan).sort
        (s.spans .readOnly .global ++ s2.spans .readOnly .global) =
        [⟨⟨[1], none⟩, ⟨2, 0⟩⟩, ⟨⟨[2], some [3]⟩, ⟨1, 0⟩⟩, ⟨⟨[3], none⟩, ⟨1, 0⟩⟩] := by decide
    rw [hsort]
    intro p c q hl
    have hplain : ∀ sp ∈ p ++ c :: q, sp.Plain := hl ▸ by decide
    refine ⟨fun t hx => ?_, fun hlost => absurd hlost.1 (hplain c (by simp))⟩
    obtain ⟨hnil, hne, hend⟩ := hx
    refine absurd hend ?_
    rcases p with _ | ⟨a, _ | ⟨b, _ | ⟨_, p⟩⟩⟩ <;>
      simp only [nil_append, cons_append, cons.injEq] at hl
    · exact not_endsAt_nil
    · obtain ⟨rfl, rfl, -⟩ := hl
      cases hnil
    · -- the range right before the key has its timestamp
      obtain ⟨rfl, rfl, rfl, -⟩ := hl
      have hrun := @runOf_snoc_of_ne ⟨⟨[2], some [3]⟩, ⟨1, 0⟩⟩ [⟨⟨[1], none⟩, ⟨2, 0⟩⟩] t hne
      rw [cons_append, nil_append] at hrun
      rw [hrun]
      exact not_endsAt_nil
    · exact absurd hl.2.2.2 (by simp)

/-- The range from 1 to 2, read at one timestamp, and the key 2, read at another one: the key
comes to be declared at both. -/
theorem spanSet_extends :
    let spans : List Span := [⟨⟨[1], some [2]⟩, ⟨1, 0⟩⟩, ⟨⟨[2], none⟩, ⟨2, 0⟩⟩]
    ¬ Declares spans ⟨1, 0⟩ [2] ∧
      Declares ((SpanSet.sortAndDedup (insertionSorter _) ⟨fun _ _ => spans, false⟩).spans
        .readOnly .global) ⟨1, 0⟩ [2] := by
  unfold Declares
  decide

end Cockroach.Spanset
