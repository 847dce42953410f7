import Cockroach.Roachpb.Span

/-!
# Unions and differences of spans (`merge_spans.go`)

* `mergeSpans_union`: `MergeSpans` gives the union, and tells whether any two spans share a
  key, unless there is a key with an end key that is empty and not nil. Such a key is lost when
  a range ends at it (`mergeSpans_loses_key`).
* `subtractSpans_difference`: `SubtractSpans` gives the difference, in order if anything is
  subtracted. With nothing to subtract the spans stay in the order they have
  (`subtractSpans_unsorted`).
-/

namespace Cockroach.Roachpb

open Lib Storage List

/-! ## Union -/

/-- `roachpb.Span` with a nil end key told from an empty one. -/
structure RawSpan where
  key : Key
  endKey : Option Key := none
  deriving DecidableEq, Repr, Inhabited

namespace RawSpan

/-- The span with the nil end key taken as an empty one. -/
def toSpan (s : RawSpan) : Span := ⟨s.key, s.endKey.getD []⟩

@[simp] theorem toSpan_key (s : RawSpan) : s.toSpan.key = s.key := rfl

/-- The end key is nil or not empty. -/
def Plain (s : RawSpan) : Prop := s.endKey ≠ some []

instance (s : RawSpan) : Decidable s.Plain := instDecidableNot

/-- A range rather than a single key. -/
def Ranged (s : RawSpan) : Prop := s.toSpan.endKey ≠ []

instance (s : RawSpan) : Decidable s.Ranged := instDecidableNot

variable {s : RawSpan} {k : Key}

theorem endKey_eq_nil (s : RawSpan) :
    s.toSpan.endKey = [] ↔ s.endKey = none ∨ s.endKey = some [] := by
  unfold toSpan
  cases s.endKey with
  | none => simp
  | some e => simp

theorem Ranged.plain (h : s.Ranged) : s.Plain := by
  intro he
  unfold Ranged toSpan at h
  rw [he] at h
  exact h rfl

theorem Ranged.mem_iff (h : s.Ranged) : k ∈ s.toSpan ↔ s.key ≤ k ∧ k < s.toSpan.endKey :=
  Span.mem_range h

end RawSpan

/-- The span with nil for an empty end key. -/
def Span.raw (s : Span) : RawSpan := ⟨s.key, if s.endKey = [] then none else some s.endKey⟩

@[simp] theorem Span.toSpan_raw (s : Span) : s.raw.toSpan = s := by
  unfold raw RawSpan.toSpan
  ext1
  · rfl
  · split_ifs with h
    · exact h.symm
    · rfl

theorem Span.raw_plain (s : Span) : s.raw.Plain := by
  unfold raw RawSpan.Plain
  split_ifs with h
  · exact nofun
  · exact fun he => h (Option.some.inj he)

theorem map_toSpan_raw (l : List Span) : (l.map Span.raw).map RawSpan.toSpan = l := by
  simp [Function.comp_def]

/-- What the loop of `MergeSpans` makes of the last span and the next one: one span, or two if
there is none. And whether they are distinct. -/
def mergeInto (prev cur : RawSpan) : Option RawSpan × Bool :=
  if cur.toSpan.endKey = [] ∧ prev.toSpan.endKey = [] then
    if cur.key ≠ prev.key then (none, true) else (some prev, false)
  else if prev.toSpan.endKey = [] then
    if cur.key = prev.key then (some { prev with endKey := cur.endKey }, false) else (none, true)
  else if cur.key ≤ prev.toSpan.endKey then
    -- an empty end key that is not nil takes this branch
    if cur.endKey ≠ none then
      if prev.toSpan.endKey < cur.toSpan.endKey then
        (some { prev with endKey := cur.endKey }, decide (prev.toSpan.endKey ≤ cur.key))
      else (some prev, false)
    else if prev.toSpan.endKey = cur.key then
      (some { prev with endKey := some cur.key.next }, true)
    else (some prev, false)
  else (none, true)

/-- The loop of `MergeSpans`, over sorted spans. -/
def mergeSorted : RawSpan → List RawSpan → List RawSpan × Bool
  | prev, [] => ([prev], true)
  | prev, cur :: rest =>
    match mergeInto prev cur with
    | (some merged, distinct) =>
      let r := mergeSorted merged rest
      (r.1, distinct && r.2)
    | (none, distinct) =>
      let r := mergeSorted cur rest
      (prev :: r.1, distinct && r.2)

/-- `sort.Sort`, which may leave spans with the same key and end key in any order. -/
structure Sorter (α : Type) (span : α → Span) where
  sort : List α → List α
  perm (l : List α) : (sort l).Perm l
  sorted (l : List α) : (sort l).Pairwise fun s t => spanLE (span s) (span t)

/-- A sort that keeps the order of such spans. -/
def insertionSorter {α : Type} (span : α → Span) : Sorter α span where
  sort l := l.insertionSort fun s t => spanLE (span s) (span t)
  perm l := perm_insertionSort _ l
  sorted l := by
    have : Std.Total fun s t : α => spanLE (span s) (span t) := ⟨fun _ _ => spanLE_total _ _⟩
    have : IsTrans α fun s t => spanLE (span s) (span t) := ⟨fun _ _ _ => spanLE_trans⟩
    exact pairwise_insertionSort _ l

theorem Sorter.sorted_key {α : Type} {span : α → Span} (o : Sorter α span) (l : List α) :
    (o.sort l).Pairwise fun s t => (span s).key ≤ (span t).key :=
  (o.sorted l).imp fun h => h.elim le_of_lt fun h => h.1.le

/-- `MergeSpans`. -/
def mergeSpans (o : Sorter RawSpan RawSpan.toSpan) (spans : List RawSpan) : List RawSpan × Bool :=
  match o.sort spans with
  | [] => ([], true)
  | first :: rest => mergeSorted first rest

/-- No key is in both spans. -/
def Span.Disjoint (s t : Span) : Prop := ∀ k ∈ s, k ∉ t

theorem Span.Disjoint.symm {s t : Span} (h : s.Disjoint t) : t.Disjoint s :=
  fun k ht hs => h k hs ht

theorem Span.disjoint_of_lt {s t : Span} (h : ∀ k ∈ s, k < t.key) : s.Disjoint t :=
  fun k hs ht => absurd (h k hs) (not_lt.mpr (key_le_of_mem ht))

/-- A span meets one that starts before it at its first key, if at all. -/
theorem Span.disjoint_iff {s t : Span} (ht : t.Ordered) (hkey : s.key ≤ t.key) :
    s.Disjoint t ↔ t.key ∉ s := by
  constructor
  · exact fun h hs => h t.key hs ht.key_mem
  · intro h k hs hk
    have hle := key_le_of_mem hk
    rw [mem_def] at h hs
    split_ifs at h hs with he
    · exact h (le_antisymm (hs ▸ hle) hkey)
    · exact h ⟨hkey, hle.trans_lt hs.2⟩

/-! ### One round -/

section Union

variable {prev cur merged : RawSpan} {done l spans : List RawSpan} {k : Key}

/-- `cur` is lost: its end key is empty and not nil, and `prev` is a range that ends at it. -/
def Drops (prev cur : RawSpan) : Prop :=
  cur.endKey = some [] ∧ prev.Ranged ∧ prev.toSpan.endKey = cur.key

/-- `merged` stands for both spans, unless `cur` is lost. -/
structure Merged (prev cur merged : RawSpan) : Prop where
  key : merged.key = prev.key
  ordered : merged.toSpan.Ordered
  ranged : merged.Ranged ↔ prev.Ranged ∨ cur.Ranged
  mem : ∀ x, x ∈ merged.toSpan ↔ x ∈ prev.toSpan ∨ x ∈ cur.toSpan ∧ ¬ Drops prev cur
  within : merged.Ranged → ∀ x ∈ merged.toSpan,
    prev.Ranged ∧ x ∈ prev.toSpan ∨ cur.Plain ∧ x ∈ cur.toSpan
  plain : prev.Plain → cur.Plain → merged.Plain
  point : ¬ merged.Ranged → merged = prev

theorem RawSpan.mem_toSpan {s : RawSpan} : k ∈ s.toSpan ↔
    if s.toSpan.endKey = [] then k = s.key else s.key ≤ k ∧ k < s.toSpan.endKey := Iff.rfl

/-- The flag is whether the two spans share no key, and the second one is not lost. -/
theorem mergeInto_snd (hc : cur.toSpan.Ordered)
    (hkey : prev.key ≤ cur.key) :
    (mergeInto prev cur).2 = true ↔ cur.key ∉ prev.toSpan ∧ ¬ Drops prev cur := by
  rw [RawSpan.mem_toSpan]
  unfold Span.Ordered at hc
  unfold mergeInto Drops RawSpan.Ranged
  have : ∀ k, ¬ k < ([] : Key) := not_lt_nil
  have hend := cur.endKey_eq_nil
  split_ifs with h₁ h₂ h₃ h₄ h₅ h₆ h₇ h₈ <;> grind [RawSpan.toSpan]

theorem mergeInto_none (hkey : prev.key ≤ cur.key) (h : (mergeInto prev cur).1 = none) :
    (∀ k ∈ prev.toSpan, k < cur.key) ∧ (prev.Ranged → prev.toSpan.endKey < cur.key) := by
  simp only [RawSpan.mem_toSpan]
  unfold mergeInto at h
  unfold RawSpan.Ranged
  split_ifs at h <;> grind

theorem mergeInto_some (hp : prev.toSpan.Ordered) (hc : cur.toSpan.Ordered)
    (hkey : prev.key ≤ cur.key) (h : (mergeInto prev cur).1 = some merged) :
    Merged prev cur merged := by
  have hnil : ∀ k, ¬ k < ([] : Key) := not_lt_nil
  have hnext : ∀ k l : Key, k < l.next ↔ k ≤ l := fun _ _ => lt_append_zero_iff
  have hne := Span.next_ne_nil
  have hend := cur.endKey_eq_nil
  unfold Span.Ordered at hp hc
  unfold mergeInto at h
  split_ifs at h <;> cases h
  all_goals
    constructor <;>
      simp only [RawSpan.mem_toSpan, Span.Ordered, Drops, RawSpan.Ranged, RawSpan.Plain] at * <;>
      grind [RawSpan.toSpan]

/-! ### The last span -/

/-- The keys of the spans, those left out whose end key is empty and not nil. -/
def PlainCovers (l : List RawSpan) (k : Key) : Prop := ∃ s ∈ l, s.Plain ∧ k ∈ s.toSpan

/-- All keys from the start of some range on are covered, up to `k`. -/
def Reaches (l : List RawSpan) (k : Key) : Prop :=
  ∃ r ∈ l, r.Ranged ∧ r.key < k ∧ ∀ x, r.key ≤ x → x < k → PlainCovers l x

/-- They are covered up to `k` and no further. -/
def EndsAt (l : List RawSpan) (k : Key) : Prop := Reaches l k ∧ ¬ PlainCovers l k

/-- `prev` is the last span that the loop has made of the spans `done`. -/
structure LastOf (done : List RawSpan) (prev : RawSpan) : Prop where
  ordered : prev.toSpan.Ordered
  keys : ∀ r ∈ done, r.Ranged → PlainCovers done r.key
  mem : ∀ x, PlainCovers done x → prev.key ≤ x → x ∈ prev.toSpan
  within : prev.Ranged → ∀ x ∈ prev.toSpan, PlainCovers done x
  ranged : prev.Ranged ↔ ∃ r ∈ done, r.Ranged ∧ prev.key ≤ r.key
  gap : ∀ r ∈ done, r.Ranged → r.key < prev.key →
    ∃ x, r.key ≤ x ∧ x < prev.key ∧ ¬ PlainCovers done x

theorem plainCovers_snoc :
    PlainCovers (done ++ [cur]) k ↔ PlainCovers done k ∨ cur.Plain ∧ k ∈ cur.toSpan := by
  unfold PlainCovers
  simp only [mem_append, mem_singleton, or_and_right, exists_or, exists_eq_left]

/-- The last span is a range up to `k` iff the spans it was made of are. -/
theorem LastOf.endKey_eq_iff (h : LastOf done prev) (hk : prev.key ≤ k) :
    prev.Ranged ∧ prev.toSpan.endKey = k ↔ EndsAt done k := by
  constructor
  · rintro ⟨hp, rfl⟩
    obtain ⟨r, hr, hrange, hle⟩ := h.ranged.mp hp
    have hin := hp.mem_iff.mp (h.mem _ (h.keys r hr hrange) hle)
    refine ⟨⟨r, hr, hrange, hin.2, fun x hx hlt => ?_⟩, fun hcov => ?_⟩
    · exact h.within hp x (hp.mem_iff.mpr ⟨hle.trans hx, hlt⟩)
    · exact lt_irrefl _ (hp.mem_iff.mp (h.mem _ hcov hk)).2
  · rintro ⟨⟨r, hr, hrange, hlt, hcov⟩, hno⟩
    -- nothing is left out between the range and the last span
    have hle : prev.key ≤ r.key := by
      by_contra hbefore
      obtain ⟨x, hx, hxlt, hxno⟩ := h.gap r hr hrange (not_le.mp hbefore)
      exact hxno (hcov x hx (hxlt.trans_le hk))
    have hp : prev.Ranged := h.ranged.mpr ⟨r, hr, hrange, hle⟩
    have hin := hp.mem_iff.mp (h.mem _ (h.keys r hr hrange) hle)
    refine ⟨hp, le_antisymm ?_ ?_⟩
    · refine not_lt.mp fun hend => hno (h.within hp k (hp.mem_iff.mpr ⟨hk, hend⟩))
    · refine not_lt.mp fun hend => ?_
      have hself := h.mem _ (hcov _ hin.2.le hend) (hle.trans hin.2.le)
      exact lt_irrefl _ (hp.mem_iff.mp hself).2

theorem LastOf.single (hc : cur.toSpan.Ordered) : LastOf [cur] cur where
  ordered := hc
  keys := fun r hr hrange => by
    obtain rfl := mem_singleton.mp hr
    exact ⟨r, hr, hrange.plain, hc.key_mem⟩
  mem := by
    rintro x ⟨s, hs, -, hx⟩ -
    rwa [mem_singleton.mp hs] at hx
  within := fun hr x hx => ⟨cur, mem_singleton_self _, hr.plain, hx⟩
  ranged := by simp
  gap := by simp

theorem LastOf.keys_snoc (h : LastOf done prev) (hc : cur.toSpan.Ordered) :
    ∀ r ∈ done ++ [cur], r.Ranged → PlainCovers (done ++ [cur]) r.key := by
  intro r hr hrange
  rw [plainCovers_snoc]
  rcases mem_append.mp hr with hr | hr
  · exact .inl (h.keys r hr hrange)
  · rw [mem_singleton.mp hr] at hrange ⊢
    exact .inr ⟨hrange.plain, hc.key_mem⟩

theorem not_plainCovers_snoc (hk : k < cur.key) (hno : ¬ PlainCovers done k) :
    ¬ PlainCovers (done ++ [cur]) k := by
  intro hcov
  rcases plainCovers_snoc.mp hcov with hcov | ⟨-, hcov⟩
  · exact hno hcov
  · exact absurd (Span.key_le_of_mem hcov) (not_le.mpr hk)

theorem mem_of_mem_snoc {r : RawSpan} (hr : r ∈ done ++ [cur]) (hlt : r.key < cur.key) :
    r ∈ done := by
  refine (mem_append.mp hr).resolve_right fun hr => ?_
  rw [mem_singleton.mp hr] at hlt
  exact lt_irrefl _ hlt

/-- The next span starts after all that went before. -/
theorem LastOf.push (h : LastOf done prev) (hc : cur.toSpan.Ordered) (hkey : prev.key ≤ cur.key)
    (hlast : ∀ x ∈ prev.toSpan, x < cur.key)
    (hend : prev.Ranged → prev.toSpan.endKey < cur.key) : LastOf (done ++ [cur]) cur := by
  have hno : ∀ x, cur.key ≤ x → ¬ PlainCovers done x := fun x hx hcov =>
    absurd (hlast x (h.mem x hcov (hkey.trans hx))) (not_lt.mpr hx)
  refine ⟨hc, h.keys_snoc hc, fun x hx hle => ?_, fun hr x hx => ?_, ⟨fun hr => ?_, ?_⟩, ?_⟩
  · exact ((plainCovers_snoc.mp hx).resolve_left (hno x hle)).2
  · exact plainCovers_snoc.mpr (.inr ⟨hr.plain, hx⟩)
  · exact ⟨cur, mem_append_right _ (mem_singleton_self _), hr, le_rfl⟩
  · rintro ⟨r, hr, hrange, hle⟩
    rcases mem_append.mp hr with hr | hr
    · exact absurd (h.keys r hr hrange) (hno _ hle)
    · rwa [mem_singleton.mp hr] at hrange
  · intro r hr hrange hlt
    have hr := mem_of_mem_snoc hr hlt
    rcases lt_or_ge r.key prev.key with hbefore | hafter
    · obtain ⟨x, hx, hxlt, hxno⟩ := h.gap r hr hrange hbefore
      exact ⟨x, hx, hxlt.trans_le hkey, not_plainCovers_snoc (hxlt.trans_le hkey) hxno⟩
    · have hp : prev.Ranged := h.ranged.mpr ⟨r, hr, hrange, hafter⟩
      have hin := hp.mem_iff.mp (h.mem _ (h.keys r hr hrange) hafter)
      refine ⟨_, hin.2.le, hend hp, not_plainCovers_snoc (hend hp) fun hcov => ?_⟩
      exact lt_irrefl _ (hp.mem_iff.mp (h.mem _ hcov (hafter.trans hin.2.le))).2

/-- The next span is merged into the last one. -/
theorem LastOf.merge (h : LastOf done prev) (hc : cur.toSpan.Ordered) (hkey : prev.key ≤ cur.key)
    (hm : Merged prev cur merged) : LastOf (done ++ [cur]) merged := by
  refine ⟨hm.ordered, h.keys_snoc hc, fun x hx hle => ?_, fun hr x hx => ?_, ?_, ?_⟩
  · rw [hm.key] at hle
    rw [hm.mem]
    refine (plainCovers_snoc.mp hx).imp (fun hx => h.mem x hx hle) fun hx => ⟨hx.2, ?_⟩
    exact fun hdrop => hx.1 hdrop.1
  · rw [plainCovers_snoc]
    exact (hm.within hr x hx).imp_left fun hx => h.within hx.1 x hx.2
  · rw [hm.ranged, h.ranged, hm.key]
    simp only [mem_append, mem_singleton, or_and_right, exists_or, exists_eq_left]
    exact or_congr_right (and_iff_left hkey).symm
  · rw [hm.key]
    intro r hr hrange hlt
    obtain ⟨x, hx, hxlt, hxno⟩ := h.gap r (mem_of_mem_snoc hr (hlt.trans_le hkey)) hrange hlt
    exact ⟨x, hx, hxlt, not_plainCovers_snoc (hxlt.trans_le hkey) hxno⟩

/-- `cur` gets lost after `done`: its end key is empty and not nil, and a range ends at it. -/
def Dropped (done : List RawSpan) (cur : RawSpan) : Prop :=
  cur.endKey = some [] ∧ EndsAt done cur.key

theorem LastOf.drops_iff (h : LastOf done prev) (hkey : prev.key ≤ cur.key) :
    Drops prev cur ↔ Dropped done cur := and_congr_right fun _ => h.endKey_eq_iff hkey

theorem not_endsAt_nil : ¬ EndsAt [] k := by
  rintro ⟨⟨r, hr, -⟩, -⟩
  cases hr

/-! ### All rounds -/

/-- Some element of a list, with those before it, after the elements `b`. -/
theorem exists_split_cons {α : Type} {P : List α → α → Prop} {b : List α} {x : α} {l : List α} :
    (∃ p c q, x :: l = p ++ c :: q ∧ P (b ++ p) c) ↔
      P b x ∨ ∃ p c q, l = p ++ c :: q ∧ P (b ++ [x] ++ p) c := by
  simp only [append_assoc, singleton_append]
  constructor
  · rintro ⟨p, c, q, heq, hP⟩
    cases p with
    | nil =>
      cases heq
      exact .inl (append_nil b ▸ hP)
    | cons y p =>
      cases heq
      exact .inr ⟨p, c, q, rfl, hP⟩
  · rintro (hP | ⟨p, c, q, rfl, hP⟩)
    · exact ⟨[], x, l, rfl, (append_nil b).symm ▸ hP⟩
    · exact ⟨x :: p, c, q, rfl, hP⟩

theorem mergeSorted_cons (rest : List RawSpan) : mergeSorted prev (cur :: rest) =
    match (mergeInto prev cur).1 with
    | some merged =>
      ((mergeSorted merged rest).1, (mergeInto prev cur).2 && (mergeSorted merged rest).2)
    | none =>
      (prev :: (mergeSorted cur rest).1, (mergeInto prev cur).2 && (mergeSorted cur rest).2) := by
  rw [mergeSorted]
  rcases mergeInto prev cur with ⟨_ | _, _⟩ <;> rfl

theorem sorted_merged {α : Type} {key : α → Key} {a b c : α} {rest : List α} (h : key c = key a)
    (hsort : (a :: b :: rest).Pairwise fun s t => key s ≤ key t) :
    (c :: rest).Pairwise fun s t => key s ≤ key t := by
  obtain ⟨hprev, hrest⟩ := pairwise_cons.mp hsort
  refine pairwise_cons.mpr ⟨fun t ht => ?_, hrest.of_cons⟩
  exact h.le.trans (hprev t (mem_cons_of_mem _ ht))

/-- What comes out of the loop is apart and in order. -/
theorem mergeSorted_apart {l : List RawSpan} (hl : ∀ s ∈ prev :: l, s.toSpan.Ordered)
    (hsort : (prev :: l).Pairwise fun s t => s.key ≤ t.key) :
    (∀ s ∈ (mergeSorted prev l).1, s.toSpan.Ordered ∧ prev.key ≤ s.key) ∧
      (mergeSorted prev l).1.Pairwise fun s t => ∀ k ∈ s.toSpan, k < t.key := by
  induction l generalizing prev with
  | nil => exact ⟨forall_mem_singleton.mpr ⟨hl prev mem_cons_self, le_rfl⟩, pairwise_singleton _ _⟩
  | cons cur rest ih =>
    obtain ⟨hprev, hrest⟩ := pairwise_cons.mp hsort
    obtain ⟨hp, hl⟩ := forall_mem_cons.mp hl
    obtain ⟨hc, hl'⟩ := forall_mem_cons.mp hl
    have hkey := hprev cur mem_cons_self
    cases hm : (mergeInto prev cur).1 with
    | none =>
      rw [mergeSorted_cons, hm]
      obtain ⟨hord, hapart⟩ := ih hl hrest
      refine ⟨forall_mem_cons.mpr ⟨⟨hp, le_rfl⟩, fun s hs => ?_⟩, pairwise_cons.mpr ⟨?_, hapart⟩⟩
      · exact ⟨(hord s hs).1, hkey.trans (hord s hs).2⟩
      · exact fun s hs k hk => ((mergeInto_none hkey hm).1 k hk).trans_le (hord s hs).2
    | some merged =>
      rw [mergeSorted_cons, hm]
      have hmerged := mergeInto_some hp hc hkey hm
      rw [← hmerged.key]
      exact ih (forall_mem_cons.mpr ⟨hmerged.ordered, hl'⟩) (sorted_merged hmerged.key hsort)

/-- All spans are taken in but those that get lost. -/
theorem covers_mergeSorted {done l : List RawSpan} (h : LastOf done prev)
    (hl : ∀ s ∈ l, s.toSpan.Ordered) (hsort : (prev :: l).Pairwise fun s t => s.key ≤ t.key)
    (k : Key) :
    Covers ((mergeSorted prev l).1.map RawSpan.toSpan) k ↔ k ∈ prev.toSpan ∨
      ∃ p c q, l = p ++ c :: q ∧ k ∈ c.toSpan ∧ ¬ Dropped (done ++ p) c := by
  induction l generalizing prev done with
  | nil => simp [mergeSorted, Covers]
  | cons cur rest ih =>
    obtain ⟨hprev, hrest⟩ := pairwise_cons.mp hsort
    obtain ⟨hc, hl⟩ := forall_mem_cons.mp hl
    have hkey := hprev cur mem_cons_self
    rw [@exists_split_cons _ fun p c => k ∈ c.toSpan ∧ ¬ Dropped p c, ← h.drops_iff hkey]
    cases hm : (mergeInto prev cur).1 with
    | none =>
      obtain ⟨hlast, hend⟩ := mergeInto_none hkey hm
      have hdrop : ¬ Drops prev cur := fun hd => (hend hd.2.1).ne hd.2.2
      rw [mergeSorted_cons, hm, map_cons, covers_cons, ih (h.push hc hkey hlast hend) hl hrest,
        and_iff_left hdrop]
    | some merged =>
      have hmerged := mergeInto_some h.ordered hc hkey hm
      rw [mergeSorted_cons, hm, ih (h.merge hc hkey hmerged) hl (sorted_merged hmerged.key hsort),
        hmerged.mem, or_assoc]

/-- The flag is whether no two spans share a key, and none gets lost. -/
theorem mergeSorted_distinct {done l : List RawSpan} (h : LastOf done prev)
    (hl : ∀ s ∈ l, s.toSpan.Ordered) (hsort : (prev :: l).Pairwise fun s t => s.key ≤ t.key) :
    (mergeSorted prev l).2 = true ↔
      (prev :: l).Pairwise (fun s t => s.toSpan.Disjoint t.toSpan) ∧
        ¬ ∃ p c q, l = p ++ c :: q ∧ Dropped (done ++ p) c := by
  induction l generalizing prev done with
  | nil => simp [mergeSorted]
  | cons cur rest ih =>
    obtain ⟨hprev, hrest⟩ := pairwise_cons.mp hsort
    obtain ⟨hc, hl⟩ := forall_mem_cons.mp hl
    have hkey := hprev cur mem_cons_self
    have hsnd := mergeInto_snd hc hkey
    rw [← RawSpan.toSpan_key cur, ← Span.disjoint_iff hc hkey] at hsnd
    rw [@exists_split_cons _ Dropped, not_or, ← h.drops_iff hkey, pairwise_cons, forall_mem_cons]
    cases hm : (mergeInto prev cur).1 with
    | none =>
      obtain ⟨hlast, hend⟩ := mergeInto_none hkey hm
      -- nothing that comes later starts before `cur` does
      have hfar : ∀ t ∈ rest, prev.toSpan.Disjoint t.toSpan := by
        intro t ht
        refine Span.disjoint_of_lt fun k hk => (hlast k hk).trans_le ?_
        exact (pairwise_cons.mp hrest).1 t ht
      rw [mergeSorted_cons, hm, Bool.and_eq_true, hsnd, ih (h.push hc hkey hlast hend) hl hrest]
      tauto
    | some merged =>
      have hmerged := mergeInto_some h.ordered hc hkey hm
      rw [mergeSorted_cons, hm, Bool.and_eq_true, hsnd, ih (h.merge hc hkey hmerged) hl
        (sorted_merged hmerged.key hsort), pairwise_cons, pairwise_cons]
      by_cases hdrop : Drops prev cur
      · simp [hdrop]
      have hdisj : ∀ t : Span, merged.toSpan.Disjoint t ↔
          prev.toSpan.Disjoint t ∧ cur.toSpan.Disjoint t := by
        intro t
        unfold Span.Disjoint
        simp only [hmerged.mem, and_iff_left hdrop, or_imp, forall_and]
      simp only [hdisj, forall_and]
      tauto

/-- The loop makes fewer spans of the given ones, or leaves them as they are. -/
theorem mergeSorted_length (prev : RawSpan) (l : List RawSpan) :
    (mergeSorted prev l).1.length ≤ (prev :: l).length ∧
      ((mergeSorted prev l).1.length = (prev :: l).length →
        (mergeSorted prev l).1 = prev :: l) := by
  induction l generalizing prev with
  | nil => exact ⟨le_rfl, fun _ => rfl⟩
  | cons cur rest ih =>
    cases hm : (mergeInto prev cur).1 with
    | some merged =>
      rw [mergeSorted_cons, hm]
      have hle : (mergeSorted merged rest).1.length ≤ rest.length + 1 := (ih merged).1
      exact ⟨Nat.le_succ_of_le hle, fun h => absurd (h ▸ hle) (Nat.not_succ_le_self _)⟩
    | none =>
      rw [mergeSorted_cons, hm]
      obtain ⟨hle, heq⟩ := ih cur
      exact ⟨Nat.succ_le_succ hle, fun h => congrArg _ (heq (Nat.succ_injective h))⟩

/-- A span that `MergeSpans` takes for what it is: the end key is nil if it is empty. -/
def RawSpan.Valid (s : RawSpan) : Prop := s.toSpan.Valid ∧ s.Plain

instance (s : RawSpan) : Decidable s.Valid := instDecidableAnd

theorem Span.Valid.raw {s : Span} (h : s.Valid) : s.raw.Valid :=
  ⟨s.toSpan_raw.symm ▸ h, s.raw_plain⟩

theorem Merged.valid (h : Merged prev cur merged) (hp : prev.Valid) (hc : cur.Valid) :
    merged.Valid := by
  refine ⟨⟨fun he => ?_, h.ordered⟩, h.plain hp.2 hc.2⟩
  rw [h.point (not_not.mpr he.2)] at he
  exact hp.1.1 he

theorem mergeSorted_valid (hsort : (prev :: l).Pairwise fun s t => s.key ≤ t.key)
    (hl : ∀ s ∈ prev :: l, s.Valid) : ∀ s ∈ (mergeSorted prev l).1, s.Valid := by
  induction l generalizing prev with
  | nil => exact hl
  | cons cur rest ih =>
    obtain ⟨hprev, hrest⟩ := pairwise_cons.mp hsort
    obtain ⟨hp, hl⟩ := forall_mem_cons.mp hl
    obtain ⟨hc, hl'⟩ := forall_mem_cons.mp hl
    cases hm : (mergeInto prev cur).1 with
    | none =>
      rw [mergeSorted_cons, hm]
      exact forall_mem_cons.mpr ⟨hp, ih hrest hl⟩
    | some merged =>
      rw [mergeSorted_cons, hm]
      have hmerged := mergeInto_some hp.1.2 hc.1.2 (hprev cur mem_cons_self) hm
      exact ih (sorted_merged hmerged.key hsort) (forall_mem_cons.mpr ⟨hmerged.valid hp hc, hl'⟩)

variable (o : Sorter RawSpan RawSpan.toSpan)

/-- `MergeSpans` in terms of the spans in the order that they are sorted to. -/
theorem mergeSpans_spec (hord : ∀ s ∈ spans, s.toSpan.Ordered) :
    (∀ s ∈ (mergeSpans o spans).1, s.toSpan.Ordered) ∧
      (mergeSpans o spans).1.Pairwise (fun s t => ∀ k ∈ s.toSpan, k < t.key) ∧
      (∀ k, Covers ((mergeSpans o spans).1.map RawSpan.toSpan) k ↔
        ∃ p c q, o.sort spans = p ++ c :: q ∧ k ∈ c.toSpan ∧ ¬ Dropped p c) ∧
      ((mergeSpans o spans).2 = true ↔
        spans.Pairwise (fun s t => s.toSpan.Disjoint t.toSpan) ∧
          ¬ ∃ p c q, o.sort spans = p ++ c :: q ∧ Dropped p c) := by
  have hperm := o.perm spans
  have hsort := o.sorted_key spans
  rw [← hperm.pairwise_iff fun h => h.symm]
  unfold mergeSpans
  cases hs : o.sort spans with
  | nil => simp [Covers]
  | cons first rest =>
    rw [hs] at hperm hsort
    have hl : ∀ s ∈ first :: rest, s.toSpan.Ordered := fun s h => hord s (hperm.mem_iff.mp h)
    obtain ⟨hfirst, hrest⟩ := forall_mem_cons.mp hl
    have hlast := LastOf.single hfirst
    have hnone : ¬ Dropped [] first := fun h => not_endsAt_nil h.2
    obtain ⟨hout, hapart⟩ := mergeSorted_apart hl hsort
    refine ⟨fun s h => (hout s h).1, hapart, fun k => ?_, ?_⟩
    · have hsplit := @exists_split_cons _ (fun p c => k ∈ c.toSpan ∧ ¬ Dropped p c) [] first rest
      rw [and_iff_left hnone] at hsplit
      exact (covers_mergeSorted hlast hrest hsort k).trans hsplit.symm
    · have hsplit := @exists_split_cons _ Dropped [] first rest
      rw [or_iff_right hnone] at hsplit
      exact (mergeSorted_distinct hlast hrest hsort).trans (and_congr_right fun _ =>
        not_congr hsplit.symm)

theorem Sorter.mem_iff {s : RawSpan} : s ∈ spans ↔ ∃ p q, o.sort spans = p ++ s :: q := by
  rw [← (o.perm spans).mem_iff, mem_iff_append]

theorem Sorter.covers_iff :
    Covers (spans.map RawSpan.toSpan) k ↔ ∃ p c q, o.sort spans = p ++ c :: q ∧ k ∈ c.toSpan := by
  constructor
  · rintro ⟨_, hmem, hk⟩
    obtain ⟨s, hs, rfl⟩ := mem_map.mp hmem
    obtain ⟨p, q, hsplit⟩ := o.mem_iff.mp hs
    exact ⟨p, s, q, hsplit, hk⟩
  · rintro ⟨p, s, q, hsplit, hk⟩
    exact ⟨_, mem_map_of_mem (o.mem_iff.mpr ⟨p, q, hsplit⟩), hk⟩

theorem PlainCovers.mono {m : List RawSpan} (h : ∀ s ∈ l, s ∈ m) (hk : PlainCovers l k) :
    PlainCovers m k := by
  obtain ⟨s, hs, hks⟩ := hk
  exact ⟨s, h s hs, hks⟩

theorem Reaches.mono {m : List RawSpan} (h : ∀ s ∈ l, s ∈ m) (hk : Reaches l k) :
    Reaches m k := by
  obtain ⟨r, hr, hrange, hlt, hcov⟩ := hk
  exact ⟨r, h r hr, hrange, hlt, fun x hx hxk => (hcov x hx hxk).mono h⟩

/-- What reaches up to a span comes before it. -/
theorem Reaches.before {p q : List RawSpan}
    (hsort : (p ++ cur :: q).Pairwise fun s t => s.key ≤ t.key)
    (h : Reaches (p ++ cur :: q) cur.key) : Reaches p cur.key := by
  have hbefore : ∀ s ∈ p ++ cur :: q, s.key < cur.key → s ∈ p := by
    intro s hs hlt
    refine (mem_append.mp hs).resolve_right fun hs => ?_
    rcases mem_cons.mp hs with rfl | hs
    · exact lt_irrefl _ hlt
    · have hle := (pairwise_cons.mp (pairwise_append.mp hsort).2.1).1 s hs
      exact absurd hlt (not_lt.mpr hle)
  obtain ⟨r, hr, hrange, hlt, hcov⟩ := h
  refine ⟨r, hbefore r hr hlt, hrange, hlt, fun x hx hxk => ?_⟩
  obtain ⟨s, hs, hplain, hxs⟩ := hcov x hx hxk
  exact ⟨s, hbefore s hs ((Span.key_le_of_mem hxs).trans_lt hxk), hplain, hxs⟩

/-- A key whose end key is empty and not nil is lost, or it is not at the end of what the spans
cover. -/
theorem plainCovers_of_not_dropped {p q : List RawSpan} (hs : o.sort spans = p ++ cur :: q)
    (hnil : cur.endKey = some []) (hreach : Reaches spans cur.key) (h : ¬ Dropped p cur) :
    PlainCovers spans cur.key := by
  have hsort := o.sorted_key spans
  have hmem := fun s => (o.perm spans).mem_iff (a := s)
  rw [hs] at hsort hmem
  by_contra hno
  refine h ⟨hnil, Reaches.before hsort (hreach.mono fun s h => (hmem s).mpr h), fun hcov => ?_⟩
  exact hno (hcov.mono fun s h => (hmem s).mp (mem_append_left _ h))

/-- What is lost is covered by another span. -/
theorem Dropped.plainCovers {p q : List RawSpan} (hd : Dropped p cur)
    (hs : o.sort spans = p ++ cur :: q)
    (h : ∀ k, ⟨k, some []⟩ ∈ spans → Reaches spans k → PlainCovers spans k) :
    PlainCovers spans cur.key := by
  have hmem := fun s => (o.perm spans).mem_iff (a := s)
  rw [hs] at hmem
  obtain ⟨key, e⟩ := cur
  obtain rfl : e = some [] := hd.1
  exact h key ((hmem _).mp (mem_append_right _ mem_cons_self))
    (hd.2.1.mono fun s h => (hmem s).mp (mem_append_left _ h))

theorem Dropped.mem_iff {p : List RawSpan} (hd : Dropped p cur) : k ∈ cur.toSpan ↔ k = cur.key :=
  Span.mem_point (cur.endKey_eq_nil.mpr (.inr hd.1))

end Union

/-- Of keys and ranges that have keys, in any order, `MergeSpans` gives the union as spans in
order of which no two share a key, and tells whether no two of the given ones do. This holds iff
no key whose end key is empty and not nil is given at the end of what ranges cover, unless
another span has the key. -/
theorem mergeSpans_union (o : Sorter RawSpan RawSpan.toSpan) {spans : List RawSpan}
    (hord : ∀ s ∈ spans, s.toSpan.Ordered) :
    (((mergeSpans o spans).1.map RawSpan.toSpan).Pairwise
        (fun s t => s.key < t.key ∧ s.Disjoint t) ∧
      (∀ k, Covers ((mergeSpans o spans).1.map RawSpan.toSpan) k ↔
        Covers (spans.map RawSpan.toSpan) k) ∧
      ((mergeSpans o spans).2 = true ↔
        spans.Pairwise fun s t => s.toSpan.Disjoint t.toSpan)) ↔
    ∀ k, ⟨k, some []⟩ ∈ spans → Reaches spans k → PlainCovers spans k := by
  obtain ⟨hout, hapart, hcov, hflag⟩ := mergeSpans_spec o hord
  constructor
  · rintro ⟨-, hunion, -⟩ k hk hreach
    have hk : Covers (spans.map RawSpan.toSpan) k :=
      ⟨_, mem_map_of_mem hk, Span.mem_mk_nil.mpr rfl⟩
    obtain ⟨p, c, q, hs, hkc, hkept⟩ := (hcov k).mp ((hunion k).mpr hk)
    by_cases hnil : c.endKey = some []
    · obtain rfl := (Span.mem_point (c.endKey_eq_nil.mpr (.inr hnil))).mp hkc
      exact plainCovers_of_not_dropped o hs hnil hreach hkept
    · exact ⟨c, o.mem_iff.mpr ⟨p, q, hs⟩, hnil, hkc⟩
  · intro h
    refine ⟨pairwise_map.mpr (hapart.imp_of_mem fun hs ht hlt => ?_), fun k => ?_, ?_⟩
    · exact ⟨hlt _ (hout _ hs).key_mem, Span.disjoint_of_lt hlt⟩
    · rw [hcov, o.covers_iff]
      constructor
      · rintro ⟨p, c, q, hs, hkc, -⟩
        exact ⟨p, c, q, hs, hkc⟩
      · rintro ⟨p, c, q, hs, hkc⟩
        by_cases hdrop : Dropped p c
        · obtain ⟨s', hs', hplain, hks'⟩ := hdrop.plainCovers o hs h
          obtain ⟨p', q', hs'⟩ := o.mem_iff.mp hs'
          exact ⟨p', s', q', hs', hdrop.mem_iff.mp hkc ▸ hks', fun hdrop => hplain hdrop.1⟩
        · exact ⟨p, c, q, hs, hkc, hdrop⟩
    · rw [hflag, and_iff_left_of_imp]
      rintro hdisj ⟨p, c, q, hs, hdrop⟩
      obtain ⟨s', hs', hplain, hks'⟩ := hdrop.plainCovers o hs h
      have hc : c ∈ spans := o.mem_iff.mpr ⟨p, q, hs⟩
      have hne : s' ≠ c := fun heq => hplain (heq ▸ hdrop.1)
      have : Std.Symm fun s t : RawSpan => s.toSpan.Disjoint t.toSpan := ⟨fun _ _ h => h.symm⟩
      exact hdisj.forall hs' hc hne _ hks' (hord c hc).key_mem

/-- A key whose end key is empty, within a range, and the key at which the range starts. -/
theorem mergeSpans_union_three :
    let spans : List RawSpan := [⟨[2], some []⟩, ⟨[1], some [3]⟩, ⟨[1], none⟩]
    let r := mergeSpans (insertionSorter _) spans
    (r.1.map RawSpan.toSpan).Pairwise (fun s t => s.key < t.key ∧ s.Disjoint t) ∧
      (∀ k, Covers (r.1.map RawSpan.toSpan) k ↔ Covers (spans.map RawSpan.toSpan) k) ∧
      (r.2 = true ↔ spans.Pairwise fun s t => s.toSpan.Disjoint t.toSpan) := by
  intro spans r
  refine (mergeSpans_union _ ?_).mpr fun k hk _ => ?_
  · unfold Span.Ordered
    decide
  · obtain rfl : k = [2] := by simpa [spans] using hk
    exact ⟨⟨[1], some [3]⟩, by decide, by decide, by decide⟩

/-- The range from 1 to 2 and the key 2, whose end key is empty and not nil: the key is lost,
and the two are said not to be distinct. -/
theorem mergeSpans_loses_key :
    mergeSpans (insertionSorter _) [⟨[1], some [2]⟩, ⟨[2], some []⟩] =
        ([⟨[1], some [2]⟩], false) ∧
      [2] ∈ (⟨[2], some []⟩ : RawSpan).toSpan ∧ [2] ∉ (⟨[1], some [2]⟩ : RawSpan).toSpan := by
  decide

/-- Valid spans stay valid, and none is lost. -/
theorem mergeSpans_valid (o : Sorter RawSpan RawSpan.toSpan) {spans : List RawSpan}
    (h : ∀ s ∈ spans, s.Valid) : (∀ s ∈ (mergeSpans o spans).1, s.Valid) ∧
      ∀ k, Covers ((mergeSpans o spans).1.map RawSpan.toSpan) k ↔
        Covers (spans.map RawSpan.toSpan) k := by
  refine ⟨?_, fun k => ?_⟩
  · have hperm := o.perm spans
    have hsort := o.sorted_key spans
    unfold mergeSpans
    cases hs : o.sort spans with
    | nil => simp
    | cons first rest =>
      rw [hs] at hperm hsort
      exact mergeSorted_valid hsort fun s hs => h s (hperm.mem_iff.mp hs)
  · obtain ⟨-, -, hcov, -⟩ := mergeSpans_spec o fun s hs => (h s hs).1.2
    rw [hcov, o.covers_iff]
    refine exists₃_congr fun p c q => and_congr_right fun hs => and_iff_left fun hdrop => ?_
    exact (h c (o.mem_iff.mpr ⟨p, q, hs⟩)).2 hdrop.1

/-- If merging leaves as many spans as there were, it has only sorted them. -/
theorem perm_mergeSpans (o : Sorter RawSpan RawSpan.toSpan) {spans : List RawSpan}
    (h : spans.length = (mergeSpans o spans).1.length) : (mergeSpans o spans).1.Perm spans := by
  have hperm := o.perm spans
  rw [← hperm.length_eq] at h
  unfold mergeSpans at h ⊢
  cases hs : o.sort spans with
  | nil => rwa [hs] at hperm
  | cons first rest =>
    rw [hs] at h hperm
    dsimp only at h ⊢
    rwa [(mergeSorted_length first rest).2 h.symm]

/-- `MergeSpans` of spans whose end keys are nil where they are empty. -/
def mergePlain (spans : List Span) : List Span :=
  (mergeSpans (insertionSorter _) (spans.map Span.raw)).1.map RawSpan.toSpan

theorem covers_mergePlain {spans : List Span} (h : ∀ s ∈ spans, s.Valid) (k : Key) :
    Covers (mergePlain spans) k ↔ Covers spans k := by
  unfold mergePlain
  rw [(mergeSpans_valid _ (forall_mem_map.mpr fun s hs => (h s hs).raw)).2, map_toSpan_raw]

/-! ## Difference -/

/-- `appendRemaining`, with the last span first. -/
def appendRemaining (s : Span) : List Span → List Span
  | [] => [s]
  | last :: remaining =>
    if last.endKey = s.key then { last with endKey := s.endKey } :: remaining
    else s :: last :: remaining

/-- What `t` has before `d` remains. -/
def keepBefore (d t : Span) (remaining : List Span) : List Span :=
  if d.key ≤ t.key then remaining else appendRemaining ⟨t.key, d.key⟩ remaining

/-- The loop of `SubtractSpans`, over sorted spans. What remains is kept with the last span
first. -/
def subtractSorted (remaining : List Span) : List Span → List Span → List Span
  | t :: todo, d :: done =>
    if t.key = t.endKey then subtractSorted remaining todo (d :: done)
    else if t.endKey ≤ d.key then subtractSorted (appendRemaining t remaining) todo (d :: done)
    else if d.endKey ≤ t.key then subtractSorted remaining (t :: todo) done
    -- the spans overlap
    else if d.endKey < t.endKey then
      subtractSorted (keepBefore d t remaining) ({ t with key := d.endKey } :: todo) done
    else if t.endKey < d.endKey then
      subtractSorted (keepBefore d t remaining) todo (d :: done)
    else subtractSorted (keepBefore d t remaining) todo done
  | todo, _ => remaining.reverse ++ todo
termination_by todo done => todo.length + done.length

/-- `SubtractSpans`. -/
def subtractSpans (todo done : List Span) : List Span :=
  if done = [] then todo
  else
    subtractSorted [] (todo.insertionSort fun s t => s.key ≤ t.key)
      (done.insertionSort fun s t => s.key ≤ t.key)

section Difference

variable {l remaining todo done : List Span} {s t d : Span} {k : Key}

/-- A range that has keys. -/
def Span.IsRange (s : Span) : Prop := s.key < s.endKey

theorem Span.IsRange.mem_iff (h : s.IsRange) : k ∈ s ↔ s.key ≤ k ∧ k < s.endKey := by
  refine mem_range ?_
  intro he
  unfold IsRange at h
  rw [he] at h
  exact not_lt_nil _ h

/-- Ranges in order, each after the one before. -/
def Ranges (l : List Span) : Prop :=
  (∀ s ∈ l, s.IsRange) ∧ l.Pairwise fun s t => s.endKey ≤ t.key

theorem ranges_nil : Ranges [] := ⟨by simp, .nil⟩

theorem ranges_cons : Ranges (s :: l) ↔ s.IsRange ∧ (∀ t ∈ l, s.endKey ≤ t.key) ∧ Ranges l := by
  unfold Ranges
  rw [forall_mem_cons, pairwise_cons]
  tauto

theorem ranges_append {m : List Span} : Ranges (l ++ m) ↔
    Ranges l ∧ Ranges m ∧ ∀ s ∈ l, ∀ t ∈ m, s.endKey ≤ t.key := by
  unfold Ranges
  rw [forall_mem_append, pairwise_append]
  tauto

/-- A range may be replaced by ranges within it. -/
theorem Ranges.replace {m : List Span} (h : Ranges (l ++ t :: todo)) (hm : Ranges m)
    (hin : ∀ u ∈ m, t.key ≤ u.key ∧ u.endKey ≤ t.endKey) : Ranges (l ++ (m ++ todo)) := by
  simp only [ranges_append, ranges_cons] at h ⊢
  grind

/-- The first range, and what comes after it. -/
theorem Ranges.head (h : Ranges (s :: l)) : s.IsRange ∧ Ranges l ∧ ∀ k,
    (Covers (s :: l) k ↔ s.key ≤ k ∧ k < s.endKey ∨ Covers l k) ∧
      (Covers l k → s.endKey ≤ k) := by
  obtain ⟨hs, hle, hl⟩ := ranges_cons.mp h
  refine ⟨hs, hl, fun k => ⟨covers_cons.trans (by rw [hs.mem_iff]), ?_⟩⟩
  rintro ⟨t, ht, hk⟩
  exact (hle t ht).trans (Span.key_le_of_mem hk)

theorem appendRemaining_spec (h : Ranges (remaining.reverse ++ s :: l)) :
    Ranges ((appendRemaining s remaining).reverse ++ l) ∧
      ∀ k, Covers (appendRemaining s remaining) k ↔ k ∈ s ∨ Covers remaining k := by
  cases remaining with
  | nil => exact ⟨h, fun k => covers_cons⟩
  | cons last remaining =>
    rw [appendRemaining]
    split_ifs with he
    · simp only [reverse_cons, append_assoc, singleton_append] at h ⊢
      obtain ⟨hr, hlast, hbefore⟩ := ranges_append.mp h
      obtain ⟨hlast, hle, hsl⟩ := ranges_cons.mp hlast
      obtain ⟨hs, hafter, hl⟩ := ranges_cons.mp hsl
      have hjoin : Span.IsRange { last with endKey := s.endKey } :=
        hlast.trans (he.trans_lt hs)
      refine ⟨?_, fun k => ?_⟩
      · rw [ranges_append, ranges_cons]
        refine ⟨hr, ⟨hjoin, hafter, hl⟩, fun u hu => forall_mem_cons.mpr ⟨?_, ?_⟩⟩
        · exact hbefore u hu last mem_cons_self
        · intro t ht
          exact hbefore u hu t (mem_cons_of_mem _ (mem_cons_of_mem _ ht))
      · rw [covers_cons, covers_cons, hjoin.mem_iff, hs.mem_iff, hlast.mem_iff, ← or_assoc]
        refine or_congr_left ⟨fun hk => ?_, fun hk => ?_⟩
        · rcases lt_or_ge k s.key with hlt | hge
          · exact .inr ⟨hk.1, he ▸ hlt⟩
          · exact .inl ⟨hge, hk.2⟩
        · rcases hk with hk | hk
          · exact ⟨hlast.le.trans (he ▸ hk.1), hk.2⟩
          · exact ⟨hk.1, hk.2.trans (he ▸ hs)⟩
    · refine ⟨?_, fun k => covers_cons⟩
      simpa using h

/-- What is before `d` is taken from `t`, and `m` from what is after. -/
theorem keepBefore_spec {m : List Span} (h : Ranges (remaining.reverse ++ t :: todo))
    (hd : d.IsRange) (hdt : d.key < t.endKey) (hm : Ranges m)
    (hin : ∀ u ∈ m, t.key ≤ u.key ∧ d.endKey ≤ u.key ∧ u.endKey ≤ t.endKey) :
    Ranges ((keepBefore d t remaining).reverse ++ (m ++ todo)) ∧
      ∀ k, Covers (keepBefore d t remaining) k ↔
        t.key ≤ k ∧ k < d.key ∨ Covers remaining k := by
  unfold keepBefore
  split_ifs with hle
  · refine ⟨h.replace hm fun u hu => ⟨(hin u hu).1, (hin u hu).2.2⟩, fun k => ?_⟩
    exact (or_iff_right fun hk => absurd (hk.1.trans_lt hk.2) (not_lt.mpr hle)).symm
  · have hp : Span.IsRange ⟨t.key, d.key⟩ := not_le.mp hle
    have hpm : Ranges (⟨t.key, d.key⟩ :: m) :=
      ranges_cons.mpr ⟨hp, fun u hu => hd.le.trans (hin u hu).2.1, hm⟩
    have hwithin : ∀ u ∈ ⟨t.key, d.key⟩ :: m, t.key ≤ u.key ∧ u.endKey ≤ t.endKey :=
      forall_mem_cons.mpr ⟨⟨le_rfl, hdt.le⟩, fun u hu => ⟨(hin u hu).1, (hin u hu).2.2⟩⟩
    obtain ⟨hr, hc⟩ := appendRemaining_spec (h.replace hpm hwithin)
    refine ⟨hr, fun k => (hc k).trans ?_⟩
    rw [hp.mem_iff]

/-- The loop leaves what is to do and not done. -/
theorem subtractSorted_spec (htodo : Ranges (remaining.reverse ++ todo)) (hdone : Ranges done) :
    Ranges (subtractSorted remaining todo done) ∧
      ∀ k, Covers (subtractSorted remaining todo done) k ↔
        Covers remaining k ∨ Covers todo k ∧ ¬ Covers done k := by
  have hhead := fun {r : List Span} {t todo} (h : Ranges (r.reverse ++ t :: todo)) =>
    (ranges_append.mp h).2.1.head
  fun_induction subtractSorted remaining todo done with
  | case1 remaining t todo d done he ih => exact absurd he (hhead htodo).1.ne
  | case2 remaining t todo d done he hle ih =>
    obtain ⟨ht, -, htc⟩ := hhead htodo
    obtain ⟨hd, -, hdc⟩ := hdone.head
    obtain ⟨hr, hc⟩ := appendRemaining_spec htodo
    obtain ⟨hres, hcov⟩ := ih hr hdone
    refine ⟨hres, fun k => ?_⟩
    have := hd.le
    rw [hcov, hc, ht.mem_iff, (htc k).1, (hdc k).1]
    grind
  | case3 remaining t todo d done he hle hle' ih =>
    obtain ⟨ht, -, htc⟩ := hhead htodo
    obtain ⟨hd, hdone', hdc⟩ := hdone.head
    obtain ⟨hres, hcov⟩ := ih htodo hdone'
    refine ⟨hres, fun k => ?_⟩
    have := ht.le
    rw [hcov, (htc k).1, (hdc k).1]
    grind
  | case4 remaining t todo d done he hle hle' hlt ih =>
    obtain ⟨ht, -, htc⟩ := hhead htodo
    obtain ⟨hd, hdone', hdc⟩ := hdone.head
    have hrest : Span.IsRange { t with key := d.endKey } := hlt
    have hlt'' : d.key < d.endKey := hd
    obtain ⟨hr, hc⟩ := keepBefore_spec htodo hd (not_le.mp hle)
      (ranges_cons.mpr ⟨hrest, by simp, ranges_nil⟩) (by simpa using (not_le.mp hle').le)
    obtain ⟨hres, hcov⟩ := ih hr hdone'
    refine ⟨hres, fun k => ?_⟩
    rw [hcov, hc, (htc k).1, (hdc k).1, covers_cons, hrest.mem_iff]
    grind
  | case5 remaining t todo d done he hle hle' hlt hlt' ih =>
    obtain ⟨ht, -, htc⟩ := hhead htodo
    obtain ⟨hd, -, hdc⟩ := hdone.head
    have hlt'' : d.key < d.endKey := hd
    obtain ⟨hr, hc⟩ := keepBefore_spec htodo hd (not_le.mp hle) ranges_nil (by simp)
    obtain ⟨hres, hcov⟩ := ih hr hdone
    refine ⟨hres, fun k => ?_⟩
    rw [hcov, hc, (htc k).1, (hdc k).1]
    grind
  | case6 remaining t todo d done he hle hle' hlt hlt' ih =>
    obtain ⟨ht, -, htc⟩ := hhead htodo
    obtain ⟨hd, hdone', hdc⟩ := hdone.head
    have hlt'' : d.key < d.endKey := hd
    obtain ⟨hr, hc⟩ := keepBefore_spec htodo hd (not_le.mp hle) ranges_nil (by simp)
    obtain ⟨hres, hcov⟩ := ih hr hdone'
    refine ⟨hres, fun k => ?_⟩
    rw [hcov, hc, (htc k).1, (hdc k).1]
    grind
  | case7 remaining todo done hne =>
    refine ⟨htodo, fun k => ?_⟩
    rw [covers_append, covers_perm (reverse_perm _)]
    refine or_congr_right (and_iff_left_of_imp ?_).symm
    -- one of the two lists is empty
    rintro ⟨t, ht, -⟩ ⟨d, hd, -⟩
    cases todo with
    | nil => cases ht
    | cons t' todo =>
      cases done with
      | nil => cases hd
      | cons d' done => exact hne t' todo d' done rfl rfl

theorem Ranges.disjoint (h : Ranges l) :
    l.Pairwise fun s t => s.key < t.key ∧ s.Disjoint t := by
  refine h.2.imp_of_mem fun hs ht hle => ?_
  refine ⟨(h.1 _ hs).trans_le hle, Span.disjoint_of_lt fun k hk => ?_⟩
  exact ((h.1 _ hs).mem_iff.mp hk).2.trans_le hle

/-- Ranges of which no two share a key are in order once they are sorted. -/
theorem ranges_insertionSort (hl : ∀ s ∈ l, s.IsRange) (hd : l.Pairwise Span.Disjoint) :
    Ranges (l.insertionSort fun s t => s.key ≤ t.key) := by
  have hperm := perm_insertionSort (fun s t : Span => s.key ≤ t.key) l
  have : IsTrans Span fun s t => s.key ≤ t.key := ⟨fun _ _ _ => le_trans⟩
  have : Std.Total fun s t : Span => s.key ≤ t.key := ⟨fun _ _ => le_total _ _⟩
  have hrange : ∀ s ∈ l.insertionSort fun s t => s.key ≤ t.key, s.IsRange :=
    fun s hs => hl s (hperm.mem_iff.mp hs)
  have hd' := (hperm.pairwise_iff fun h => Span.Disjoint.symm h).mpr hd
  refine ⟨hrange, ((pairwise_insertionSort _ l).and hd').imp_of_mem ?_⟩
  intro s t hs ht h
  refine not_lt.mp fun hlt => h.2 t.key ?_ ?_
  · exact (hrange s hs).mem_iff.mpr ⟨h.1, hlt⟩
  · exact (hrange t ht).mem_iff.mpr ⟨le_rfl, hrange t ht⟩

end Difference

/-- Of ranges of which no two share a key, in any order, `SubtractSpans` gives ranges of which
no two share a key, and that cover what is to do and not done. They are in order unless
nothing is done, where they are the given ones as they are. -/
theorem subtractSpans_difference {todo done : List Span} (htodo : ∀ s ∈ todo, s.IsRange)
    (hdone : ∀ s ∈ done, s.IsRange) (htodo' : todo.Pairwise Span.Disjoint)
    (hdone' : done.Pairwise Span.Disjoint) :
    (if done = [] then subtractSpans todo done = todo
      else (subtractSpans todo done).Pairwise fun s t => s.key < t.key) ∧
    (subtractSpans todo done).Pairwise Span.Disjoint ∧
    ∀ k, Covers (subtractSpans todo done) k ↔ Covers todo k ∧ ¬ Covers done k := by
  unfold subtractSpans
  split_ifs with he
  · refine ⟨rfl, htodo', fun k => (and_iff_left ?_).symm⟩
    rw [he]
    rintro ⟨s, hs, -⟩
    cases hs
  · obtain ⟨hr, hc⟩ := @subtractSorted_spec [] (todo.insertionSort _) _
      (ranges_insertionSort htodo htodo') (ranges_insertionSort hdone hdone')
    refine ⟨hr.disjoint.imp And.left, hr.disjoint.imp And.right, fun k => ?_⟩
    rw [hc, covers_perm (List.perm_insertionSort _ todo),
      covers_perm (List.perm_insertionSort _ done)]
    exact or_iff_right (by simp [Covers])

/-- Two ranges, not in order, of which parts of both are taken out. -/
theorem subtractSpans_difference_several :
    let todo : List Span := [⟨[5], [9]⟩, ⟨[1], [3]⟩]
    let done : List Span := [⟨[7], [8]⟩, ⟨[2], [6]⟩]
    subtractSpans todo done = [⟨[1], [2]⟩, ⟨[6], [7]⟩, ⟨[8], [9]⟩] ∧
      ∀ k, Covers (subtractSpans todo done) k ↔ Covers todo k ∧ ¬ Covers done k := by
  intro todo done
  have hdisj : ∀ s t : Span, t.IsRange → t.endKey ≤ s.key → [s, t].Pairwise Span.Disjoint := by
    intro s t ht hle
    refine pairwise_pair.mpr (Span.Disjoint.symm (Span.disjoint_of_lt fun k hk => ?_))
    exact (ht.mem_iff.mp hk).2.trans_le hle
  refine ⟨by decide +kernel, (subtractSpans_difference ?_ ?_ ?_ ?_).2.2⟩
  · unfold Span.IsRange
    decide
  · unfold Span.IsRange
    decide
  · exact hdisj _ _ (by unfold Span.IsRange; decide) (by decide)
  · exact hdisj _ _ (by unfold Span.IsRange; decide) (by decide)

/-- Without anything to subtract the result is not sorted. -/
theorem subtractSpans_unsorted : subtractSpans [⟨[2], [3]⟩, ⟨[1], [2]⟩] [] =
    [⟨[2], [3]⟩, ⟨[1], [2]⟩] ∧ ¬ ([2] : Key) < [1] := by
  decide

end Cockroach.Roachpb
