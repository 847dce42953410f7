import Cockroach.Gc.Walk

/-!
# Collection does not change what may be read

A committed version at or below the threshold is garbage if a range tombstone at or below
the threshold is above it, if it is a tombstone, or if a newer committed version is at or
below the threshold too (`Stored.Garbage`); this is what the loop reports
(`reported_iff`). Reads above the threshold may be done whatever becomes of the intents:

* they return the same without garbage, if with a version all older ones go (`Stored.read_trim`);
* garbage is downward closed (`Stored.Garbage.older`);
* what stays at or below the threshold is found by some read at or above it
  (`Stored.find_kept`, `Stored.find_provisional`).
-/

namespace Cockroach.Gc

open Lib Hlc Storage List

/-- The versions that are not an intent's, in the order given by the newest at the end. -/
def committedUpTo (m : Option (List UInt8)) (vs : List Version) : List Version :=
  if m.isSome then vs.dropLast else vs

/-- A version of the committed ones is garbage. -/
def GarbageIn (threshold rangeTS : Timestamp) (vs : List Version) (v : Version) : Prop :=
  v ∈ vs ∧ v.timestamp ≤ threshold ∧ (v.timestamp < rangeTS ∨ v.value = none ∨
    ∃ w ∈ vs, v.timestamp < w.timestamp ∧ w.timestamp ≤ threshold)

variable {vs : List Version} {v : Version}

section Calls

variable {threshold rangeTS : Timestamp} {k : Key} {m : Option (List UInt8)}

theorem verdict_iff {next : Option Version} :
    verdict threshold rangeTS v next = true ↔ v.timestamp ≤ threshold ∧
      (v.timestamp < rangeTS ∨ v.value = none ∨ ∃ w ∈ next, w.timestamp ≤ threshold) := by
  unfold verdict
  rw [Bool.and_eq_true, Bool.or_eq_true, Bool.or_eq_true, decide_eq_true_iff, decide_eq_true_iff,
    Option.isNone_iff_eq_none, or_assoc]
  cases next with
  | none => simp
  | some w => simp

theorem committedUpTo_cons (v w : Version) (vs : List Version) :
    committedUpTo m (v :: w :: vs) = v :: committedUpTo m (w :: vs) := by
  unfold committedUpTo
  split_ifs <;> rfl

theorem committedUpTo_subset (h : v ∈ committedUpTo m vs) : v ∈ vs := by
  unfold committedUpTo at h
  split_ifs at h
  · exact mem_of_mem_dropLast h
  · exact h

/-- The next committed version is the oldest of those that follow. -/
theorem head_committedUpTo (w : Version) (vs : List Version) :
    (committedUpTo m (w :: vs)).head? = if vs = [] ∧ m.isSome then none else some w := by
  unfold committedUpTo
  cases m with
  | none => simp
  | some value =>
    cases vs with
    | nil => rfl
    | cons x vs => simp

/-- The oldest version is garbage if and only if its verdict says so. -/
theorem verdict_iff_garbageIn {v w : Version}
    (hasc : (v :: w :: vs).Pairwise fun v w => v.timestamp < w.timestamp) :
    verdict threshold rangeTS v (if vs = [] ∧ m.isSome then none else some w) = true ↔
      GarbageIn threshold rangeTS (committedUpTo m (v :: w :: vs)) v := by
  obtain ⟨hlt, hasc⟩ := pairwise_cons.mp hasc
  rw [verdict_iff, ← head_committedUpTo, committedUpTo_cons]
  unfold GarbageIn
  constructor
  · rintro ⟨hle, h⟩
    refine ⟨mem_cons_self, hle, ?_⟩
    refine h.imp_right (Or.imp_right ?_)
    rintro ⟨x, hx, hxle⟩
    have hmem := mem_of_mem_head? hx
    exact ⟨x, mem_cons_of_mem _ hmem, hlt x (committedUpTo_subset hmem), hxle⟩
  · rintro ⟨-, hle, h⟩
    refine ⟨hle, h.imp_right (Or.imp_right ?_)⟩
    rintro ⟨x, hx, hxlt, hxle⟩
    rcases mem_cons.mp hx with rfl | hx
    · exact absurd hxlt (lt_irrefl _)
    · -- The first that follows is not newer than `x`.
      cases hc : committedUpTo m (w :: vs) with
      | nil =>
        rw [hc] at hx
        cases hx
      | cons y ys =>
        refine ⟨y, rfl, ?_⟩
        rw [hc] at hx
        rcases mem_cons.mp hx with rfl | hx
        · exact hxle
        · have hsub : (y :: ys).Sublist (w :: vs) := by
            rw [← hc]
            unfold committedUpTo
            split_ifs
            · exact dropLast_sublist _
            · exact Sublist.refl _
          exact ((pairwise_cons.mp (hasc.sublist hsub)).1 x hx).le.trans hxle

/-- An older version does not make the newer ones garbage. -/
theorem garbageIn_cons {v x : Version}
    (hlt : ∀ w ∈ vs, v.timestamp < w.timestamp) (hx : v.timestamp < x.timestamp) :
    GarbageIn threshold rangeTS (v :: vs) x ↔ GarbageIn threshold rangeTS vs x := by
  unfold GarbageIn
  have hmem : x ∈ v :: vs ↔ x ∈ vs := by
    rw [mem_cons]
    refine ⟨fun h => h.resolve_left ?_, .inr⟩
    rintro rfl
    exact lt_irrefl _ hx
  have hex : (∃ w ∈ v :: vs, x.timestamp < w.timestamp ∧ w.timestamp ≤ threshold) ↔
      ∃ w ∈ vs, x.timestamp < w.timestamp ∧ w.timestamp ≤ threshold := by
    refine ⟨?_, fun h => ?_⟩
    · rintro ⟨w, hw, hlt', hle⟩
      rcases mem_cons.mp hw with rfl | hw
      · exact absurd (hx.trans hlt') (lt_irrefl _)
      · exact ⟨w, hw, hlt', hle⟩
    · obtain ⟨w, hw, hlt', hle⟩ := h
      exact ⟨w, mem_cons_of_mem _ hw, hlt', hle⟩
  rw [hmem, hex]

/-- Each version of a key gets a call. -/
theorem keyCalls_map_cur (vs : List Version) : (keyCalls threshold rangeTS k m vs).map (·.cur) =
      vs.map (·.entry k) ++ if vs = [] then m.toList.map (metaEntry k) else [] := by
  induction vs with
  | nil =>
    unfold keyCalls
    rw [map_map]
    rfl
  | cons v vs ih =>
    cases vs with
    | nil => rfl
    | cons w vs =>
      unfold keyCalls
      rw [map_cons, ih]
      rfl

/-- What is reported for a key is its garbage. -/
theorem keyCalls_garbage (hasc : vs.Pairwise fun v w => v.timestamp < w.timestamp) :
    ∀ call ∈ keyCalls threshold rangeTS k m vs, call.garbage = true ↔
      ∃ v, GarbageIn threshold rangeTS (committedUpTo m vs) v ∧
        call.cur.key = ⟨k, v.timestamp⟩ := by
  induction vs with
  | nil =>
    intro call hcall
    obtain ⟨value, -, rfl⟩ := mem_map.mp hcall
    refine ⟨fun h => (by cases h), ?_⟩
    rintro ⟨v, ⟨hmem, -⟩, -⟩
    exact absurd (committedUpTo_subset hmem) not_mem_nil
  | cons v vs ih =>
    cases vs with
    | nil =>
      intro call hcall
      cases mem_singleton.mp hcall
      show (m.isNone && verdict threshold rangeTS v none) = true ↔ _
      cases m with
      | some value =>
        refine ⟨fun h => (by cases h), ?_⟩
        rintro ⟨w, ⟨hmem, -⟩, -⟩
        cases hmem
      | none =>
        rw [show ((none : Option (List UInt8)).isNone && verdict threshold rangeTS v none) =
          verdict threshold rangeTS v none from rfl, verdict_iff]
        constructor
        · rintro ⟨hle, h⟩
          refine ⟨v, ⟨mem_singleton.mpr rfl, hle, h.imp_right (Or.imp_right ?_)⟩, rfl⟩
          rintro ⟨w, hw, -⟩
          cases hw
        · rintro ⟨w, ⟨hmem, hle, h⟩, -⟩
          cases mem_singleton.mp hmem
          refine ⟨hle, h.imp_right (Or.imp_right ?_)⟩
          rintro ⟨x, hx, hlt, -⟩
          cases mem_singleton.mp hx
          exact absurd hlt (lt_irrefl _)
    | cons w vs =>
      intro call hcall
      obtain ⟨hlt, hasc'⟩ := pairwise_cons.mp hasc
      rcases mem_cons.mp hcall with rfl | hcall
      · show verdict threshold rangeTS v _ = true ↔ _
        rw [verdict_iff_garbageIn hasc]
        refine ⟨fun h => ⟨v, h, rfl⟩, ?_⟩
        rintro ⟨x, hx, hkey⟩
        have hts : v.timestamp = x.timestamp := congrArg MVCCKey.timestamp hkey
        have hmem := hx.1
        rw [committedUpTo_cons] at hmem
        rcases mem_cons.mp hmem with rfl | hmem
        · exact hx
        · exact absurd hts (hlt x (committedUpTo_subset hmem)).ne
      · rw [ih hasc' call hcall, committedUpTo_cons]
        -- The call is for a version that is newer than `v`.
        have hcur : ∃ x ∈ w :: vs, call.cur = x.entry k := by
          have := mem_map_of_mem (f := (·.cur)) hcall
          rw [keyCalls_map_cur, if_neg (cons_ne_nil _ _), append_nil] at this
          obtain ⟨x, hx, heq⟩ := mem_map.mp this
          exact ⟨x, hx, heq.symm⟩
        obtain ⟨x, hx, hcur⟩ := hcur
        have hnewer : ∀ y : Version, call.cur.key = ⟨k, y.timestamp⟩ →
            v.timestamp < y.timestamp := by
          intro y hy
          rw [hcur] at hy
          rw [← show x.timestamp = y.timestamp from congrArg MVCCKey.timestamp hy]
          exact hlt x hx
        have hall : ∀ y ∈ committedUpTo m (w :: vs), v.timestamp < y.timestamp := fun y hy =>
          hlt y (committedUpTo_subset hy)
        constructor
        · rintro ⟨y, hy, hkey⟩
          exact ⟨y, (garbageIn_cons hall (hnewer y hkey)).mpr hy, hkey⟩
        · rintro ⟨y, hy, hkey⟩
          exact ⟨y, (garbageIn_cons hall (hnewer y hkey)).mp hy, hkey⟩

end Calls

/-! ## One key -/

/-- The newest of some timestamps at or below the threshold, or the empty one. -/
structure NewestBelow (threshold : Timestamp) (tombstones : List Timestamp) (ts : Timestamp) :
    Prop where
  mem : ∀ t, t < ts → ts ∈ tombstones ∧ ts ≤ threshold
  le : ∀ r ∈ tombstones, r ≤ threshold → r ≤ ts

/-- A committed version is garbage. -/
abbrev Stored.Garbage (s : Stored) (threshold rangeTS : Timestamp) (v : Version) : Prop :=
  GarbageIn threshold rangeTS (s.committed .aborted) v

section Key

variable {threshold rangeTS ts : Timestamp} {tombstones : List Timestamp} {s : Stored}
  {f : Future} {v w : Version} {vs : List Version} {g : Version → Bool}

/-- What an intent becomes stays, before the committed versions. -/
theorem Stored.committed_remove (hp : s.metaValue.isSome = true → ∀ p ∈ s.versions.head?,
    g p = false) (f : Future) :
    ∃ l, s.committed f = l ++ s.committed .aborted ∧
      (s.remove g).committed f = l ++ (s.committed .aborted).filter fun v => !g v := by
  unfold committed remove
  cases hm : s.metaValue with
  | none => exact ⟨[], rfl, rfl⟩
  | some value =>
    cases hv : s.versions with
    | nil => exact ⟨[], rfl, rfl⟩
    | cons p vs =>
      have hgp : g p = false := hp (by rw [hm]; rfl) p (by rw [hv]; rfl)
      rw [filter_cons_of_pos (by rw [hgp]; rfl)]
      cases f with
      | pending | aborted => exact ⟨[], rfl, rfl⟩
      | committed => exact ⟨[p], rfl, rfl⟩
      | pushed ts => exact ⟨[{ p with timestamp := ts }], rfl, rfl⟩

theorem findVersion_some (hf : vs.find? (fun v => decide (v.timestamp ≤ ts)) = some v) :
    findVersion tombstones ts vs =
      if ∀ r ∈ tombstones, r < v.timestamp ∨ ts < r then some v else none := by
  unfold findVersion
  rw [hf]
  by_cases hall : ∀ r ∈ tombstones, r < v.timestamp ∨ ts < r
  · rw [if_pos hall, Option.filter_some_pos]
    exact all_eq_true.mpr fun r hr => decide_eq_true (hall r hr)
  · rw [if_neg hall, Option.filter_some_neg]
    rw [Bool.eq_false_iff, Ne, all_eq_true]
    exact fun h => hall fun r hr => of_decide_eq_true (h r hr)

theorem findVersion_none (hf : vs.find? (fun v => decide (v.timestamp ≤ ts)) = none) :
    findVersion tombstones ts vs = none := by
  unfold findVersion
  rw [hf]
  rfl

/-- A garbage version that is found is not visible above the threshold: a range tombstone
hides it, or it is a tombstone itself. -/
theorem GarbageIn.not_visible (h : GarbageIn threshold rangeTS vs v)
    (hnew : NewestBelow threshold tombstones rangeTS) (hts : threshold < ts)
    (hf : vs.find? (fun v => decide (v.timestamp ≤ ts)) = some v)
    (hfirst : ∀ w ∈ vs, v.timestamp < w.timestamp → ts < w.timestamp) :
    (findVersion tombstones ts vs).bind (·.value) = none := by
  rw [findVersion_some hf]
  split_ifs with hall
  · rcases h.2.2 with hlt | hnone | ⟨w, hw, hlt, hwle⟩
    · obtain ⟨hr, hrle⟩ := hnew.mem _ hlt
      rcases hall _ hr with h | h
      · exact absurd h (not_lt.mpr hlt.le)
      · exact absurd (hrle.trans_lt hts) (not_lt.mpr h.le)
    · exact hnone
    · exact absurd (hwle.trans_lt hts) (not_lt.mpr (hfirst w hw hlt).le)
  · rfl

/-- An older version than a garbage one is garbage. -/
theorem GarbageIn.older (h : GarbageIn threshold rangeTS vs v) (hw : w ∈ vs)
    (hlt : w.timestamp < v.timestamp) : GarbageIn threshold rangeTS vs w :=
  ⟨hw, hlt.le.trans h.2.1, .inr (.inr ⟨v, h.1, hlt, h.2.1⟩)⟩

/-- The versions that stay are found as before, or what was found is not visible. -/
theorem findVersion_filter (hdesc : vs.Pairwise fun v w => w.timestamp < v.timestamp)
    (hnew : NewestBelow threshold tombstones rangeTS)
    (hg : ∀ v ∈ vs, g v = true → GarbageIn threshold rangeTS vs v)
    (hold : ∀ v ∈ vs, ∀ w ∈ vs, w.timestamp < v.timestamp → g v = true → g w = true)
    (hts : threshold < ts) :
    (findVersion tombstones ts (vs.filter fun v => !g v)).bind (·.value) =
      (findVersion tombstones ts vs).bind (·.value) := by
  cases hf : vs.find? fun v => decide (v.timestamp ≤ ts) with
  | none =>
    have hnone : (vs.filter fun v => !g v).find? (fun v => decide (v.timestamp ≤ ts)) = none := by
      rw [find?_eq_none] at hf ⊢
      exact fun v hv => hf v (mem_of_mem_filter hv)
    rw [findVersion_none hnone, findVersion_none hf]
  | some v =>
    obtain ⟨hle, l₁, l₂, rfl, hfail⟩ := find?_eq_some_iff_append.mp hf
    obtain ⟨-, hdesc₂, hbefore⟩ := pairwise_append.mp hdesc
    have hnewer : ∀ w ∈ l₁, ts < w.timestamp := by
      intro w hw
      have := hfail w hw
      rw [Bool.not_eq_true', decide_eq_false_iff_not] at this
      exact not_le.mp this
    have holder : ∀ w ∈ l₂, w.timestamp < v.timestamp := (pairwise_cons.mp hdesc₂).1
    have hmem : v ∈ l₁ ++ v :: l₂ := mem_append_right _ mem_cons_self
    have hskip : ∀ l, (l₁.filter (fun v => !g v) ++ l).find?
        (fun v => decide (v.timestamp ≤ ts)) = l.find? fun v => decide (v.timestamp ≤ ts) := by
      intro l
      rw [find?_append, find?_eq_none.mpr, Option.none_or]
      intro w hw
      have := hnewer w (mem_of_mem_filter hw)
      simpa using this
    cases hgv : g v with
    | false =>
      have hfound : ((l₁ ++ v :: l₂).filter fun v => !g v).find?
          (fun v => decide (v.timestamp ≤ ts)) = some v := by
        rw [filter_append, hskip, filter_cons_of_pos (by rw [hgv]; rfl)]
        exact find?_cons_of_pos hle
      rw [findVersion_some hfound, findVersion_some hf]
    | true =>
      -- The version found goes, and so do all older ones.
      have hgone : (v :: l₂).filter (fun v => !g v) = [] := by
        rw [filter_eq_nil_iff]
        intro w hw
        have hwm : w ∈ l₁ ++ v :: l₂ := mem_append_right _ hw
        have hgw : g w = true := by
          rcases mem_cons.mp hw with rfl | hw'
          · exact hgv
          · exact hold v hmem w hwm (holder w hw') hgv
        rw [hgw]
        exact Bool.false_ne_true
      have hnone : ((l₁ ++ v :: l₂).filter fun v => !g v).find?
          (fun v => decide (v.timestamp ≤ ts)) = none := by
        rw [filter_append, hskip, hgone]
        rfl
      rw [findVersion_none hnone, (hg v hmem hgv).not_visible hnew hts hf]
      · rfl
      · intro w hw hlt
        rcases mem_append.mp hw with hw | hw
        · exact hnewer w hw
        · rcases mem_cons.mp hw with rfl | hw
          · exact absurd hlt (lt_irrefl _)
          · exact absurd (hlt.trans (holder w hw)) (lt_irrefl _)

/-- What is prepended decides alone if it is found. -/
theorem findVersion_append {l vs' : List Version}
    (h : (findVersion tombstones ts vs').bind (·.value) =
      (findVersion tombstones ts vs).bind (·.value)) :
    (findVersion tombstones ts (l ++ vs')).bind (·.value) =
      (findVersion tombstones ts (l ++ vs)).bind (·.value) := by
  cases hl : l.find? fun v => decide (v.timestamp ≤ ts) with
  | none =>
    have hall : ∀ vs, findVersion tombstones ts (l ++ vs) = findVersion tombstones ts vs := by
      intro vs
      unfold findVersion
      rw [find?_append, hl, Option.none_or]
    rw [hall, hall, h]
  | some v =>
    have hall : ∀ vs, (l ++ vs).find? (fun v => decide (v.timestamp ≤ ts)) = some v := by
      intro vs
      rw [find?_append, hl, Option.some_or]
    rw [findVersion_some (hall vs'), findVersion_some (hall vs)]

theorem Stored.committed_sublist (s : Stored) : (s.committed .aborted).Sublist s.versions := by
  unfold committed
  cases s.metaValue with
  | none => exact Sublist.refl _
  | some value =>
    cases s.versions with
    | nil => exact Sublist.refl _
    | cons p vs => exact sublist_cons_self p vs

/-- The versions of an intent are its provisional value and the committed ones. -/
theorem Stored.versions_of_meta {p : Version} (hm : s.metaValue.isSome = true)
    (hp : p ∈ s.versions.head?) : s.versions = p :: s.committed .aborted := by
  unfold committed
  cases hv : s.versions with
  | nil =>
    rw [hv] at hp
    cases hp
  | cons q vs =>
    rw [hv] at hp
    cases hp
    obtain ⟨value, hm⟩ := Option.isSome_iff_exists.mp hm
    rw [hm]

/-- A version is committed, or it is the provisional value of an intent. -/
theorem Stored.committed_or_provisional (hv : v ∈ s.versions) :
    v ∈ s.committed .aborted ∨ s.metaValue.isSome = true ∧ v ∈ s.versions.head? := by
  unfold committed
  cases hm : s.metaValue with
  | none => exact .inl hv
  | some value =>
    cases hvs : s.versions with
    | nil =>
      rw [hvs] at hv
      cases hv
    | cons p vs =>
      rw [hvs] at hv
      rcases mem_cons.mp hv with rfl | hv
      · exact .inr ⟨rfl, rfl⟩
      · exact .inl hv

/-- The provisional value is no garbage. -/
theorem Stored.Valid.provisional (h : s.Valid) {p : Version} (hm : s.metaValue.isSome = true)
    (hp : p ∈ s.versions.head?) : ¬ s.Garbage threshold rangeTS p := by
  rintro ⟨hmem, -⟩
  have hdesc := h.descending
  rw [Stored.versions_of_meta hm hp] at hdesc
  exact lt_irrefl _ ((pairwise_cons.mp hdesc).1 p hmem)

/-- The versions in `g` are the garbage of the key. -/
def Marks (g : Version → Bool) (s : Stored) (threshold rangeTS : Timestamp) : Prop :=
  ∀ v ∈ s.versions, g v = true ↔ s.Garbage threshold rangeTS v

/-- Some garbage of the key is in `g`, and with a committed version all older ones. -/
structure Trims (g : Version → Bool) (s : Stored) (threshold rangeTS : Timestamp) : Prop where
  garbage : ∀ v ∈ s.versions, g v = true → s.Garbage threshold rangeTS v
  older : ∀ v ∈ s.committed .aborted, ∀ w ∈ s.committed .aborted, w.timestamp < v.timestamp →
    g v = true → g w = true

theorem Marks.trims (hg : Marks g s threshold rangeTS) : Trims g s threshold rangeTS where
  garbage v hv := (hg v hv).mp
  older v hv w hw hlt hgv := by
    have hsub := s.committed_sublist.subset
    exact (hg w (hsub hw)).mpr (((hg v (hsub hv)).mp hgv).older hw hlt)

theorem Trims.provisional (hg : Trims g s threshold rangeTS) (h : s.Valid)
    (hm : s.metaValue.isSome = true) : ∀ p ∈ s.versions.head?, g p = false := by
  intro p hp
  rw [Bool.eq_false_iff]
  exact fun hgp => h.provisional hm hp (hg.garbage p (mem_of_mem_head? hp) hgp)

/-- Reads above the threshold do not see whether garbage was removed. -/
theorem Stored.read_trim (h : s.Valid) (hnew : NewestBelow threshold tombstones rangeTS)
    (hg : Trims g s threshold rangeTS) (hts : threshold < ts) (f : Future) :
    (s.remove g).read f tombstones ts = s.read f tombstones ts := by
  have hfind : ((s.remove g).find f tombstones ts).bind (·.value) =
      (s.find f tombstones ts).bind (·.value) := by
    obtain ⟨l, hl, hl'⟩ := Stored.committed_remove (hg.provisional h) f
    unfold find
    rw [hl, hl']
    refine findVersion_append (findVersion_filter (h.descending.sublist s.committed_sublist) hnew
      (fun v hv => hg.garbage v (s.committed_sublist.subset hv)) hg.older hts)
  unfold read
  cases hm : s.metaValue with
  | none =>
    rw [show (s.remove g).metaValue = none from hm]
    exact hfind
  | some value =>
    rw [show (s.remove g).metaValue = some value from hm]
    cases hv : s.versions with
    | nil =>
      have hnil : (s.remove g).versions = [] := by
        show s.versions.filter _ = []
        rw [hv]
        rfl
      rw [hnil]
    | cons p vs =>
      have hgp : g p = false := hg.provisional h (by rw [hm]; rfl) p (by rw [hv]; rfl)
      have hcons : (s.remove g).versions = p :: vs.filter fun v => !g v := by
        show s.versions.filter _ = _
        rw [hv]
        exact filter_cons_of_pos (by rw [hgp]; rfl)
      rw [hcons]
      exact hfind

theorem Stored.read_remove (h : s.Valid) (hnew : NewestBelow threshold tombstones rangeTS)
    (hg : Marks g s threshold rangeTS) (hts : threshold < ts) (f : Future) :
    (s.remove g).read f tombstones ts = s.read f tombstones ts :=
  read_trim h hnew hg.trims hts f

/-- A committed version that stays at or below the threshold is a value that a read at the
threshold returns once the intent is aborted. -/
theorem Stored.find_kept (h : s.Valid) (hnew : NewestBelow threshold tombstones rangeTS)
    (hdist : ∀ r ∈ tombstones, r ≠ v.timestamp) (hg : Marks g s threshold rangeTS)
    (hv : v ∈ s.committed .aborted) (hkeep : g v = false) (hle : v.timestamp ≤ threshold) :
    v.value ≠ none ∧ (s.remove g).find .aborted tombstones threshold = some v := by
  have hno : ¬ s.Garbage threshold rangeTS v := by
    rw [← hg v (s.committed_sublist.subset hv), hkeep]
    exact Bool.false_ne_true
  have hdesc := h.descending.sublist s.committed_sublist
  refine ⟨fun hnone => hno ⟨hv, hle, .inr (.inl hnone)⟩, ?_⟩
  obtain ⟨l₁, l₂, hl⟩ := append_of_mem hv
  have hcomm : (s.remove g).committed .aborted = (s.committed .aborted).filter fun v => !g v := by
    obtain ⟨l, hl, hl'⟩ := Stored.committed_remove (hg.trims.provisional h) .aborted
    have hnil : l = [] := by simpa using hl
    rw [hl', hnil, nil_append]
  have hfound : ((s.committed .aborted).filter fun v => !g v).find?
      (fun v => decide (v.timestamp ≤ threshold)) = some v := by
    rw [hl, filter_append, find?_append, find?_eq_none.mpr, Option.none_or,
      filter_cons_of_pos (by rw [hkeep]; rfl)]
    · exact find?_cons_of_pos (decide_eq_true hle)
    · intro w hw hwle
      -- A newer version at or below the threshold would make `v` garbage.
      have hwm := mem_of_mem_filter hw
      rw [hl] at hdesc
      have hlt := (pairwise_append.mp hdesc).2.2 w hwm v mem_cons_self
      refine hno ⟨hv, hle, .inr (.inr ⟨w, ?_, hlt, of_decide_eq_true hwle⟩)⟩
      rw [hl]
      exact mem_append_left _ hwm
  unfold find
  rw [hcomm, findVersion_some hfound, if_pos]
  intro r hr
  by_cases hrle : r ≤ threshold
  · refine .inl (lt_of_le_of_ne ((hnew.le r hr hrle).trans (not_lt.mp fun hlt => ?_)) (hdist r hr))
    exact hno ⟨hv, hle, .inl hlt⟩
  · exact .inr (not_le.mp hrle)

theorem exists_above (l : List Timestamp) : ∃ t, ∀ r ∈ l, r < t := by
  induction l with
  | nil => exact ⟨{}, fun r hr => by cases hr⟩
  | cons a l ih =>
    obtain ⟨t, ht⟩ := ih
    have hlt : ∀ r : Timestamp, r < ⟨r.wallTime + 1, 0⟩ := fun r => .inl (Nat.lt_succ_self _)
    refine ⟨max t ⟨a.wallTime + 1, 0⟩, fun r hr => ?_⟩
    rcases mem_cons.mp hr with rfl | hr
    · exact lt_max_of_lt_right (hlt r)
    · exact lt_max_of_lt_left (ht r hr)

/-- A provisional value is found once it is pushed far enough and committed. -/
theorem Stored.find_provisional (h : s.Valid) (hg : Marks g s threshold rangeTS) {p : Version}
    (hm : s.metaValue.isSome = true) (hp : p ∈ s.versions.head?) (tombstones : List Timestamp) :
    ∃ t, p.timestamp < t ∧ threshold ≤ t ∧
      (s.remove g).find (.pushed t) tombstones t = some { p with timestamp := t } := by
  obtain ⟨t, ht⟩ := exists_above (p.timestamp :: threshold :: tombstones)
  refine ⟨t, ht _ mem_cons_self, (ht _ (by simp)).le, ?_⟩
  have hcomm : (s.remove g).committed (.pushed t) = { p with timestamp := t } ::
      (s.committed .aborted).filter fun v => !g v := by
    obtain ⟨value, hmv⟩ := Option.isSome_iff_exists.mp hm
    have hvers : (s.remove g).versions = p :: (s.committed .aborted).filter fun v => !g v := by
      show s.versions.filter _ = _
      rw [Stored.versions_of_meta hm hp]
      exact filter_cons_of_pos (by rw [hg.trims.provisional h hm p hp]; rfl)
    unfold committed
    rw [hvers, show (s.remove g).metaValue = some value from hmv]
    rfl
  unfold find
  have hfound : ((s.remove g).committed (.pushed t)).find?
      (fun v => decide (v.timestamp ≤ t)) = some { p with timestamp := t } := by
    rw [hcomm]
    exact find?_cons_of_pos (decide_eq_true le_rfl)
  rw [findVersion_some hfound, if_pos]
  intro r hr
  exact .inl (ht r (mem_cons_of_mem _ (mem_cons_of_mem _ hr)))

end Key

/-! ## The range -/

/-- The versions that some calls report as garbage. -/
def reported (cs : List Call) (k : MVCCKey) : Bool :=
  cs.any fun call => call.garbage && decide (call.cur.key = k)

theorem reported_iff_exists {cs : List Call} {k : MVCCKey} :
    reported cs k = true ↔ ∃ call ∈ cs, call.garbage = true ∧ call.cur.key = k := by
  unfold reported
  simp [any_eq_true]

section Range

variable {c : RangeContents} {threshold : Timestamp} {k : Key}

theorem RangeContents.stored_of_mem {p : Key × Stored} (hp : p ∈ c.keys) : c.stored p.1 = p.2 := by
  unfold stored
  cases hf : c.keys.find? fun q => q.1 = p.1 with
  | none =>
    have := find?_eq_none.mp hf p hp
    exact absurd (decide_eq_true rfl) this
  | some q =>
    have hq : q.1 = p.1 := of_decide_eq_true (find?_eq_some_iff_append.mp hf).1
    have hmem := mem_of_find?_eq_some hf
    have hsym : c.keys.Pairwise fun p q => p.1 ≠ q.1 := c.sorted.imp fun h => h.ne
    have : Std.Symm fun p q : Key × Stored => p.1 ≠ q.1 := ⟨fun _ _ h => h.symm⟩
    by_contra hne
    refine hsym.forall hmem hp (fun h => hne ?_) hq
    rw [h]
    rfl

theorem RangeContents.mem_of_stored (h : (c.stored k).versions ≠ []) :
    ∃ p ∈ c.keys, p.1 = k ∧ p.2 = c.stored k := by
  unfold stored at h ⊢
  cases hf : c.keys.find? fun q => q.1 = k with
  | none =>
    rw [hf] at h
    exact absurd rfl h
  | some q =>
    exact ⟨q, mem_of_find?_eq_some hf, of_decide_eq_true (find?_eq_some_iff_append.mp hf).1, rfl⟩

theorem RangeContents.stored_valid (k : Key) : (c.stored k).Valid := by
  by_cases h : (c.stored k).versions = []
  · constructor
    · rw [h]
      exact List.Pairwise.nil
    · rw [h]
      exact fun v hv => absurd hv not_mem_nil
  · obtain ⟨p, hp, -, heq⟩ := RangeContents.mem_of_stored h
    rw [← heq]
    exact c.valid p hp

/-- The range tombstone of the iterator is the newest one at or below the threshold. -/
theorem RangeContents.rangeTS_newest (k : Key) :
    NewestBelow threshold (c.tombstones k) (c.rangeTS threshold k) := by
  unfold tombstones rangeTS
  cases hs : c.stackOver k with
  | none =>
    exact ⟨fun t ht => absurd ht (not_lt.mpr (Timestamp.empty_le t)), fun r hr => by cases hr⟩
  | some s =>
    show NewestBelow threshold (s.versions.map (·.timestamp)) (stackTS threshold s)
    unfold stackTS
    cases hf : s.versions.firstAtOrBelow threshold with
    | none =>
      refine ⟨fun t ht => absurd ht (not_lt.mpr (Timestamp.empty_le t)), fun r hr hle => ?_⟩
      obtain ⟨a, ha, rfl⟩ := mem_map.mp hr
      exact absurd hle (not_le.mpr
        (MVCCRangeKeyVersions.firstAtOrBelow_none s.newestFirst hf a ha))
    | some a =>
      obtain ⟨hmem, hle, hall⟩ := MVCCRangeKeyVersions.firstAtOrBelow_some s.newestFirst hf
      refine ⟨fun _ _ => ⟨mem_map_of_mem hmem, hle⟩, fun r hr hrle => ?_⟩
      obtain ⟨b, hb, rfl⟩ := mem_map.mp hr
      exact hall b hb hrle

/-- The committed versions in the order of the walk. -/
theorem committedUpTo_reverse (s : Stored) :
    committedUpTo s.metaValue s.versions.reverse = (s.committed .aborted).reverse := by
  unfold committedUpTo Stored.committed
  cases s.metaValue with
  | none => rfl
  | some value =>
    cases s.versions with
    | nil => rfl
    | cons p vs =>
      show (p :: vs).reverse.dropLast = vs.reverse
      rw [reverse_cons, dropLast_concat]

theorem garbageIn_reverse {rangeTS : Timestamp} :
    GarbageIn threshold rangeTS vs.reverse v ↔ GarbageIn threshold rangeTS vs v := by
  unfold GarbageIn
  simp only [mem_reverse]

/-- Every version that is stored is walked over. -/
theorem exists_call {p : Key × Stored} (hp : p ∈ c.keys) (hv : v ∈ p.2.versions) :
    ∃ call ∈ c.calls threshold, call.cur = v.entry p.1 ∧
      call ∈ keyCalls threshold (c.rangeTS threshold p.1) p.1 p.2.metaValue
        p.2.versions.reverse := by
  have hcur : v.entry p.1 ∈ (keyCalls threshold (c.rangeTS threshold p.1) p.1 p.2.metaValue
      p.2.versions.reverse).map (·.cur) := by
    rw [keyCalls_map_cur]
    exact mem_append_left _ (mem_map_of_mem (mem_reverse.mpr hv))
  obtain ⟨call, hcall, heq⟩ := mem_map.mp hcur
  exact ⟨call, mem_flatMap.mpr ⟨p, mem_reverse.mpr hp, hcall⟩, heq, hcall⟩

/-- What the loop reports is the garbage of each key. -/
theorem reported_iff {ts : Timestamp} : reported (c.calls threshold) ⟨k, ts⟩ = true ↔
      ∃ v, (c.stored k).Garbage threshold (c.rangeTS threshold k) v ∧ v.timestamp = ts := by
  rw [reported_iff_exists]
  have hkey : ∀ p ∈ c.keys, ∀ call ∈ keyCalls threshold (c.rangeTS threshold p.1) p.1
      p.2.metaValue p.2.versions.reverse, call.garbage = true ↔
        ∃ v, p.2.Garbage threshold (c.rangeTS threshold p.1) v ∧
          call.cur.key = ⟨p.1, v.timestamp⟩ := by
    intro p hp call hcall
    rw [keyCalls_garbage (pairwise_reverse.mpr (c.valid p hp).descending) call hcall,
      committedUpTo_reverse]
    simp only [garbageIn_reverse]
  constructor
  · rintro ⟨call, hcall, hg, hk⟩
    obtain ⟨p, hp, hcall⟩ := mem_flatMap.mp hcall
    rw [mem_reverse] at hp
    obtain ⟨v, hv, hcur⟩ := (hkey p hp call hcall).mp hg
    rw [hk, MVCCKey.mk.injEq] at hcur
    obtain ⟨rfl, rfl⟩ := hcur
    exact ⟨v, by rw [RangeContents.stored_of_mem hp]; exact hv, rfl⟩
  · rintro ⟨v, hv, rfl⟩
    have hmem := (c.stored k).committed_sublist.subset hv.1
    obtain ⟨p, hp, rfl, hstored⟩ := RangeContents.mem_of_stored
      (k := k) (ne_nil_of_mem hmem)
    obtain ⟨call, hcalls, heq, hcall⟩ := exists_call hp (hstored ▸ hmem)
    refine ⟨call, hcalls, ?_, ?_⟩
    · refine (hkey p hp call hcall).mpr ⟨v, ?_, ?_⟩
      · rw [hstored]
        exact hv
      · rw [heq]
        rfl
    · rw [heq]
      rfl

/-- What the loop reports marks the garbage of a key. -/
theorem reported_marks (k : Key) :
    Marks (fun v => reported (c.calls threshold) ⟨k, v.timestamp⟩) (c.stored k) threshold
      (c.rangeTS threshold k) := by
  intro v hv
  rw [reported_iff]
  refine ⟨?_, fun h => ⟨v, h, rfl⟩⟩
  rintro ⟨w, hw, hts⟩
  -- Versions are told apart by their timestamps.
  have hdesc : (c.stored k).versions.Pairwise fun v w => v.timestamp ≠ w.timestamp :=
    (c.stored_valid k).descending.imp fun h => h.ne'
  have : Std.Symm fun v w : Version => v.timestamp ≠ w.timestamp := ⟨fun _ _ h => h.symm⟩
  by_cases heq : w = v
  · rw [← heq]
    exact hw
  · exact absurd hts (hdesc.forall ((c.stored k).committed_sublist.subset hw.1) hv heq)

/-- Garbage collection does not change what may be read. The loop ends; without what it
reports as garbage every read above the threshold returns what it returned before, whatever
becomes of the intents. Garbage is downward closed. A version left at or below the threshold
is a value that a read at the threshold finds if the intent of its key is aborted, or it is
the provisional value of an intent and a read finds it once it is pushed and committed. -/
theorem collection_keeps_permitted_reads {ps : List Position} (h : Listing c ps)
    (threshold : Timestamp) :
    ∃ cs, calls threshold ps = .ok cs ∧
      (∀ (f : Key → Future) (k : Key) (ts : Timestamp), threshold < ts →
        (c.remove (reported cs)).read f k ts = c.read f k ts) ∧
      (∀ k, ∀ v ∈ (c.stored k).versions, ∀ w ∈ (c.stored k).versions,
        w.timestamp < v.timestamp → reported cs ⟨k, v.timestamp⟩ = true →
          reported cs ⟨k, w.timestamp⟩ = true) ∧
      ∀ k, ∀ v ∈ ((c.remove (reported cs)).stored k).versions, v.timestamp ≤ threshold →
        (v.value ≠ none ∧ ((c.remove (reported cs)).stored k).find .aborted
            ((c.remove (reported cs)).tombstones k) threshold = some v) ∨
          ((c.stored k).metaValue.isSome = true ∧ v ∈ (c.stored k).versions.head? ∧
            ∃ t, v.timestamp < t ∧ threshold ≤ t ∧
              ((c.remove (reported cs)).stored k).find (.pushed t)
                ((c.remove (reported cs)).tombstones k) t = some { v with timestamp := t }) := by
  have hvalid : ∀ k, (c.stored k).Valid := fun k => c.stored_valid k
  have hmarks : ∀ k, Marks (fun v => reported (c.calls threshold) ⟨k, v.timestamp⟩) (c.stored k)
      threshold (c.rangeTS threshold k) := fun k => reported_marks k
  refine ⟨c.calls threshold, calls_eq h, fun f k ts hts => ?_, fun k v hv w hw hlt hg => ?_,
    fun k v hv hle => ?_⟩
  · unfold RangeContents.read
    rw [RangeContents.stored_remove]
    exact Stored.read_remove (hvalid k) (c.rangeTS_newest k) (hmarks k) hts (f k)
  · have hgv := (hmarks k v hv).mp hg
    refine (hmarks k w hw).mpr (hgv.older ?_ hlt)
    rcases Stored.committed_or_provisional hw with hw | ⟨hm, hp⟩
    · exact hw
    · -- The provisional value is not below a committed version.
      have hdesc := (hvalid k).descending
      rw [Stored.versions_of_meta hm hp] at hdesc
      exact absurd ((List.pairwise_cons.mp hdesc).1 v hgv.1) (not_lt.mpr hlt.le)
  · rw [RangeContents.stored_remove] at hv ⊢
    obtain ⟨hmem, hkeep⟩ := List.mem_filter.mp hv
    rw [Bool.not_eq_true'] at hkeep
    rcases Stored.committed_or_provisional hmem with hcomm | ⟨hm, hp⟩
    · left
      refine Stored.find_kept (hvalid k) (c.rangeTS_newest k) (fun r hr => ?_) (hmarks k) hcomm
        hkeep hle
      -- No version has the timestamp of a range tombstone over it.
      obtain ⟨p, hp, rfl, hstored⟩ := RangeContents.mem_of_stored (List.ne_nil_of_mem hmem)
      unfold RangeContents.tombstones at hr
      cases hs : (c.remove (reported (c.calls threshold))).stackOver p.1 with
      | none =>
        rw [hs] at hr
        cases hr
      | some s =>
        rw [hs] at hr
        obtain ⟨a, ha, rfl⟩ := List.mem_map.mp hr
        obtain ⟨hsm, hsk⟩ := RangeContents.stackOver_some hs
        exact c.distinct p hp s hsm hsk v (by rw [hstored]; exact hmem) a ha
    · right
      exact ⟨hm, hp, Stored.find_provisional (hvalid k) (hmarks k) hm hp _⟩

end Range

/-- A key under a range tombstone, before a key with an intent over two versions. -/
def smallRange : RangeContents where
  keys := [([97], { versions := [⟨⟨5, 0⟩, none, 0⟩, ⟨⟨3, 0⟩, some [1], 1⟩] }),
    ([98], { metaValue := some [0], versions :=
      [⟨⟨9, 0⟩, some [4], 1⟩, ⟨⟨6, 0⟩, some [3], 1⟩, ⟨⟨4, 0⟩, some [2], 1⟩] })]
  rangeTombstones := [⟨[97], [98], [⟨⟨6, 0⟩, []⟩], by decide⟩]
  sorted := by decide
  valid := by
    intro p hp
    rcases List.mem_cons.mp hp with rfl | hp
    · exact ⟨by decide, by decide⟩
    · rw [List.mem_singleton.mp hp]
      exact ⟨by decide, by decide⟩
  fragments := by decide
  bounds := by decide
  distinct := by decide

/-- The positions of an iteration over it, with the start of the range tombstone. -/
def smallPositions : List Position :=
  smallRange.entries.map (fun kv => ⟨some kv, smallRange.stackOver kv.key.key⟩) ++
    [⟨none, smallRange.stackOver [97]⟩]

theorem smallPositions_listing : Listing smallRange smallPositions where
  points := by
    unfold smallPositions
    rw [filterMap_append, filterMap_map]
    exact (append_nil _).trans filterMap_some
  ranges := by
    intro p hp kv hkv
    rcases mem_append.mp hp with hp | hp
    · obtain ⟨kv', -, rfl⟩ := mem_map.mp hp
      cases hkv
      rfl
    · rw [mem_singleton.mp hp] at hkv
      cases hkv

/-- Both versions of the first key and the oldest one of the other are garbage; reads above
the threshold do not notice. -/
theorem collection_keeps_permitted_reads_smallRange : Listing smallRange smallPositions ∧
      (calls ⟨7, 0⟩ smallPositions).map (fun cs => cs.map (·.garbage)) =
        .ok [true, false, false, true, true] ∧
      ∃ cs, calls ⟨7, 0⟩ smallPositions = .ok cs ∧
        ∀ (f : Key → Future) (k : Key) (ts : Timestamp), ⟨7, 0⟩ < ts →
          (smallRange.remove (reported cs)).read f k ts = smallRange.read f k ts := by
  refine ⟨smallPositions_listing, by decide +kernel, ?_⟩
  obtain ⟨cs, hcs, hreads, -⟩ :=
    collection_keeps_permitted_reads smallPositions_listing ⟨7, 0⟩
  exact ⟨cs, hcs, hreads⟩

end Cockroach.Gc
