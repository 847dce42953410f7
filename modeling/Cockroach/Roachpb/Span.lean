import Cockroach.Storage.MvccKey

/-!
# Spans of keys (`roachpb/data.go`)

A span is a single key or the keys from a start up to an end. Combining two spans covers both
(`Span.mem_combine_left`, `Span.mem_combine_right`).
-/

namespace Cockroach.Roachpb

open Lib Storage List

/-- `roachpb.Span`; a single key has the empty end key. -/
@[ext] structure Span where
  key : Key
  endKey : Key := []
  deriving DecidableEq, Repr, Inhabited

namespace Span

/-- The keys of a span. -/
instance : Membership Key Span :=
  ⟨fun s k => if s.endKey = [] then k = s.key else s.key ≤ k ∧ k < s.endKey⟩

variable {s t : Span} {k : Key}

theorem mem_def : k ∈ s ↔ if s.endKey = [] then k = s.key else s.key ≤ k ∧ k < s.endKey := Iff.rfl

theorem mem_point (h : s.endKey = []) : k ∈ s ↔ k = s.key := by
  rw [mem_def, if_pos h]

theorem mem_range (h : s.endKey ≠ []) : k ∈ s ↔ s.key ≤ k ∧ k < s.endKey := by
  rw [mem_def, if_neg h]

@[simp] theorem mem_mk_nil {a : Key} : k ∈ (⟨a, []⟩ : Span) ↔ k = a := mem_point rfl

instance : Decidable (k ∈ s) := inferInstanceAs (Decidable (ite _ _ _))

/-- `Span.Valid`. -/
def Valid (s : Span) : Prop :=
  ¬ (s.key = [] ∧ s.endKey = []) ∧ (s.endKey ≠ [] → s.key < s.endKey)

instance : Decidable s.Valid := inferInstanceAs (Decidable (_ ∧ _))

/-- A single key, the empty one too, or a range that has keys. -/
def Ordered (s : Span) : Prop := s.endKey ≠ [] → s.key < s.endKey

theorem Ordered.key_mem (h : s.Ordered) : s.key ∈ s := by
  rw [mem_def]
  split_ifs with he
  · rfl
  · exact ⟨le_rfl, h he⟩

theorem key_le_of_mem (h : k ∈ s) : s.key ≤ k := by
  rw [mem_def] at h
  split_ifs at h with he
  · exact h.ge
  · exact h.1

/-- `Span.Combine`. -/
def combine (s o : Span) : Span :=
  if ¬ (s.Valid ∧ o.Valid) then ⟨[], []⟩
  else
    let max := if s.endKey ≠ [] then s.endKey else s.key
    let min := if o.key < s.key then o.key else s.key
    let max := if o.key < s.key then max else if max < o.key then o.key else max
    let max := if o.endKey ≠ [] ∧ max < o.endKey then o.endKey else max
    if min = max then ⟨min, []⟩
    else if s.key = max ∨ o.key = max then ⟨min, max.next⟩
    else ⟨min, max⟩

/-- Where a span ends: its end key, or its only key. -/
def last (s : Span) : Key := if s.endKey = [] then s.key else s.endKey

theorem Valid.key_le_last (h : s.Valid) : s.key ≤ s.last := by
  unfold last
  split_ifs with he
  · exact le_rfl
  · exact (h.2 he).le

theorem le_last (hk : k ∈ s) : k ≤ s.last := by
  unfold last
  rw [mem_def] at hk
  split_ifs at hk ⊢ with he
  · exact hk.le
  · exact hk.2.le

/-- A key at the end of a span is its only one. -/
theorem eq_key_of_last (hk : k ∈ s) (hlast : s.last ≤ k) : k = s.key := by
  unfold last at hlast
  rw [mem_def] at hk
  split_ifs at hk hlast with he
  · exact hk
  · exact absurd hk.2 (not_lt.mpr hlast)

theorem combine_eq (hs : s.Valid) (ht : t.Valid) : s.combine t =
      if min s.key t.key = max s.last t.last then ⟨min s.key t.key, []⟩
      else if s.key = max s.last t.last ∨ t.key = max s.last t.last then
        ⟨min s.key t.key, (max s.last t.last).next⟩
      else ⟨min s.key t.key, max s.last t.last⟩ := by
  have hmin : (if t.key < s.key then t.key else s.key) = min s.key t.key := by
    split_ifs with h
    · exact (min_eq_right h.le).symm
    · exact (min_eq_left (not_lt.mp h)).symm
  have hmax : (if t.endKey ≠ [] ∧
        (if t.key < s.key then s.last else if s.last < t.key then t.key else s.last) < t.endKey
      then t.endKey
      else if t.key < s.key then s.last else if s.last < t.key then t.key else s.last) =
        max s.last t.last := by
    have hinner : (if t.key < s.key then s.last else if s.last < t.key then t.key else s.last) =
        max s.last t.key := by
      split_ifs with h h'
      · exact (max_eq_left (h.le.trans hs.key_le_last)).symm
      · exact (max_eq_right h'.le).symm
      · exact (max_eq_left (not_lt.mp h')).symm
    rw [hinner]
    by_cases he : t.endKey = []
    · rw [if_neg fun h => h.1 he]
      unfold last
      rw [if_pos he]
    · have hlt := ht.2 he
      have hlast : t.last = t.endKey := if_neg he
      rw [hlast]
      split_ifs with h
      · exact (max_eq_right ((le_max_left _ _).trans h.2.le)).symm
      · have hle : t.endKey ≤ max s.last t.key := not_lt.mp fun hlt' => h ⟨he, hlt'⟩
        rcases le_max_iff.mp hle with h' | h'
        · rw [max_eq_left h', max_eq_left (hlt.le.trans h')]
        · exact absurd hlt (not_lt.mpr h')
  have hlast : (if s.endKey ≠ [] then s.endKey else s.key) = s.last := ite_not _ _ _
  unfold combine
  rw [if_neg (not_not.mpr ⟨hs, ht⟩)]
  dsimp only
  rw [hmin, hlast, hmax]

theorem next_ne_nil (k : Key) : k.next ≠ [] := by
  unfold Key.next
  simp

/-- What lies between the least start and the greatest end is in the combined span, the end
only if it is a key of its own. -/
theorem mem_combine (hs : s.Valid) (ht : t.Valid) (hmin : min s.key t.key ≤ k)
    (hmax : k ≤ max s.last t.last)
    (hend : k = max s.last t.last → k = s.key ∨ k = t.key) : k ∈ s.combine t := by
  rw [combine_eq hs ht]
  split_ifs with h₁ h₂
  · rw [mem_mk_nil]
    exact le_antisymm (h₁ ▸ hmax) hmin
  · rw [mem_range (next_ne_nil _)]
    exact ⟨hmin, lt_append_zero_iff.mpr hmax⟩
  · have hlt : k < max s.last t.last := by
      refine lt_of_le_of_ne hmax fun heq => h₂ ?_
      rcases hend heq with h | h
      · exact .inl (h ▸ heq)
      · exact .inr (h ▸ heq)
    have hne : max s.last t.last ≠ [] := by
      intro hnil
      rw [hnil] at hlt
      exact not_lt_nil k hlt
    rw [mem_range hne]
    exact ⟨hmin, hlt⟩

theorem mem_combine_left (hs : s.Valid) (ht : t.Valid) (hk : k ∈ s) : k ∈ s.combine t := by
  refine mem_combine hs ht ((min_le_left _ _).trans (key_le_of_mem hk))
    ((le_last hk).trans (le_max_left _ _)) fun heq => ?_
  exact .inl (eq_key_of_last hk (heq ▸ le_max_left _ _))

theorem mem_combine_right (hs : s.Valid) (ht : t.Valid) (hk : k ∈ t) : k ∈ s.combine t := by
  refine mem_combine hs ht ((min_le_right _ _).trans (key_le_of_mem hk))
    ((le_last hk).trans (le_max_right _ _)) fun heq => ?_
  exact .inr (eq_key_of_last hk (heq ▸ le_max_right _ _))

/-- Combining valid spans gives a valid one, so that condensing never has to give up. -/
theorem Valid.combine (hs : s.Valid) (ht : t.Valid) : (s.combine t).Valid := by
  have hle : min s.key t.key ≤ max s.last t.last :=
    (min_le_left _ _).trans (hs.key_le_last.trans (le_max_left _ _))
  rw [combine_eq hs ht]
  split_ifs with h₁ h₂
  · refine ⟨fun h => ?_, fun h => absurd rfl h⟩
    -- both spans would be the empty key
    have hmax : max s.last t.last = [] := h₁ ▸ h.1
    have hnil : ∀ a : Key, [] ≤ a := fun a => not_lt.mp (not_lt_nil a)
    have hlast : s.last = [] := le_antisymm (hmax ▸ le_max_left _ _) (hnil _)
    have hkey : s.key = [] := le_antisymm (hlast ▸ hs.key_le_last) (hnil _)
    refine hs.1 ⟨hkey, ?_⟩
    unfold last at hlast
    split_ifs at hlast with he
    · exact he
    · exact hlast
  · exact ⟨fun h => next_ne_nil _ h.2, fun _ => lt_append_zero_iff.mpr hle⟩
  · have hlt := lt_of_le_of_ne hle h₁
    refine ⟨fun h => ?_, fun _ => hlt⟩
    dsimp only at h
    rw [h.1, h.2] at hlt
    exact lt_irrefl _ hlt

end Span

/-! ## Keys that are covered -/

/-- Keys that some span covers. -/
def Covers (l : List Span) (k : Key) : Prop := ∃ s ∈ l, k ∈ s

theorem Covers.mono {l m : List Span} {k : Key} (h : ∀ s ∈ l, s ∈ m) (hk : Covers l k) :
    Covers m k := by
  obtain ⟨s, hs, hks⟩ := hk
  exact ⟨s, h s hs, hks⟩

theorem covers_append {l m : List Span} {k : Key} :
    Covers (l ++ m) k ↔ Covers l k ∨ Covers m k := by
  unfold Covers
  simp only [mem_append, or_and_right, exists_or]

theorem covers_cons {s : Span} {l : List Span} {k : Key} :
    Covers (s :: l) k ↔ k ∈ s ∨ Covers l k := by
  unfold Covers
  simp only [mem_cons, or_and_right, exists_or, exists_eq_left]

theorem covers_perm {l m : List Span} {k : Key} (h : l.Perm m) : Covers l k ↔ Covers m k :=
  ⟨Covers.mono fun _ hs => h.mem_iff.mp hs, Covers.mono fun _ hs => h.mem_iff.mpr hs⟩

/-- `sortedSpans.Less`, as an order. -/
def spanLE (s t : Span) : Prop := s.key < t.key ∨ s.key = t.key ∧ s.endKey ≤ t.endKey

instance : DecidableRel spanLE := fun _ _ => inferInstanceAs (Decidable (_ ∨ _))

theorem spanLE_trans {s t u : Span} (h : spanLE s t) (h' : spanLE t u) : spanLE s u := by
  rcases h with h | ⟨h, he⟩
  · rcases h' with h' | ⟨h', -⟩
    · exact .inl (h.trans h')
    · exact .inl (h' ▸ h)
  · rcases h' with h' | ⟨h', he'⟩
    · exact .inl (h ▸ h')
    · exact .inr ⟨h.trans h', he.trans he'⟩

theorem spanLE_total (s t : Span) : spanLE s t ∨ spanLE t s := by
  rcases lt_trichotomy s.key t.key with h | h | h
  · exact .inl (.inl h)
  · rcases le_total s.endKey t.endKey with he | he
    · exact .inl (.inr ⟨h, he⟩)
    · exact .inr (.inr ⟨h.symm, he⟩)
  · exact .inr (.inl h)

end Cockroach.Roachpb
