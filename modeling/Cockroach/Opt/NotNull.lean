import Cockroach.Opt.ConstraintSet

/-!
# Columns that a constraint keeps from being NULL (`ExtractNotNullCols`)

All spans of a constraint have the same start and end values on a prefix of the columns, so its
rows have one of these values there. The column after the prefix is bounded on the side where
NULL is by one key of each span.

* `notNull_sound`: the reported columns are not NULL in any row that satisfies the constraint, or
  all constraints of a set, but for one case: an exclusive boundary has NULL in that column and
  goes on with another value, and the span has a row with NULL there (`Constraint.Leaks`).
* `notNull_unsound`: such a span is `(/NULL/5 - /10]`.
-/

namespace Cockroach.Opt

open Lib OrderingColumn Key
open List hiding getElem?_eq_some_iff

variable {D : Type} [LinearOrder D]

/-- The start and the end key have the same value for column `n`. -/
def Span.sharesValue (n : Nat) (sp : Span D) : Bool :=
  match sp.startKey[n]?, sp.endKey[n]? with
  | some x, some y => x = y
  | _, _ => false

/-- The loop of `Constraint.Prefix` over the columns from `n` on. -/
def prefixFrom (spans : List (Span D)) : Nat → Nat → Nat
  | 0, n => n
  | columns + 1, n =>
    if spans.all (Span.sharesValue n) then prefixFrom spans columns (n + 1) else n

/-- `Constraint.Prefix` -/
def Constraint.prefixLength (c : Constraint D) : Nat :=
  if c.isContradiction then 0 else prefixFrom c.spans c.columns.count 0

/-- The key and the boundary on the side of a span where NULL is. -/
def Span.nullSide (col : OrderingColumn) (sp : Span D) : Key D × SpanBoundary :=
  if !OrderingColumn.descending col then (sp.startKey, sp.startBoundary)
  else (sp.endKey, sp.endBoundary)

section

variable [OrderBot D]

/-- The span does not keep column `n` from being NULL, as far as `ExtractNotNullCols` looks. -/
def Span.nullable (n : Nat) (col : OrderingColumn) (sp : Span D) : Bool :=
  match (sp.nullSide col).1[n]? with
  | none => true
  | some x => x = ⊥ && (sp.nullSide col).2 = .includeBoundary

/-- The columns of the prefix where no span has NULL. -/
def Constraint.notNullPrefix (c : Constraint D) : Finset ColumnID :=
  ((List.range c.prefixLength).filter fun i => !c.spans.any fun sp => sp.startKey[i]? = some ⊥)
    |>.map (fun i => OrderingColumn.id (c.columns.toList.getD i 1)) |>.toFinset

/-- `Constraint.ExtractNotNullCols` -/
def Constraint.extractNotNullCols (c : Constraint D) : Finset ColumnID :=
  if c.isUnconstrained || c.isContradiction then ∅
  else if c.prefixLength = c.columns.count then c.notNullPrefix
  else
    let col := c.columns.toList.getD c.prefixLength 1
    if c.spans.any (Span.nullable c.prefixLength col) then c.notNullPrefix
    else insert (OrderingColumn.id col) c.notNullPrefix

/-- `Set.ExtractNotNullCols`; a set without constraints other than `Unconstrained` has no first
constraint. -/
def SetRef.extractNotNullCols : SetRef D → Except Panic (Finset ColumnID)
  | .unconstrained | .contradiction => return ∅
  | .fresh s =>
    match s.constraints with
    | [] => throw .outOfRange
    | c :: cs =>
      return cs.foldl (fun res c => res ∪ c.extractNotNullCols) c.extractNotNullCols

end

/-! ## The prefix -/

section

variable {c : Constraint D} {sp : Span D} {spans : List (Span D)} {cols : List OrderingColumn}
  {n i : Nat} {row : List D}

theorem Span.sharesValue_iff :
    sp.sharesValue n = true ↔ ∃ x, sp.startKey[n]? = some x ∧ sp.endKey[n]? = some x := by
  unfold sharesValue
  cases hs : sp.startKey[n]? with
  | none => simp
  | some x =>
    cases he : sp.endKey[n]? with
    | none => simp
    | some y => simp [eq_comm]

theorem prefixFrom_spec {columns : Nat} :
    n ≤ prefixFrom spans columns n ∧ prefixFrom spans columns n ≤ n + columns ∧
      ∀ i, n ≤ i → i < prefixFrom spans columns n → ∀ sp ∈ spans, sp.sharesValue i = true := by
  induction columns generalizing n with
  | zero => exact ⟨le_rfl, le_rfl, fun i hi hlt => absurd hi (not_le.mpr hlt)⟩
  | succ columns ih =>
    rw [prefixFrom]
    split
    · rename_i hall
      obtain ⟨hle, hle', hshare⟩ := @ih (n + 1)
      refine ⟨by omega, by omega, fun i hi hlt => ?_⟩
      rcases hi.eq_or_lt with rfl | hi
      · exact all_eq_true.mp hall
      · exact hshare i hi hlt
    · exact ⟨le_rfl, by omega, fun i hi hlt => absurd hi (not_le.mpr hlt)⟩

theorem Constraint.prefixLength_le : c.prefixLength ≤ c.columns.count := by
  unfold prefixLength
  split
  · exact Nat.zero_le _
  · exact prefixFrom_spec.2.1.trans_eq (Nat.zero_add _)

theorem Constraint.sharesValue_of_lt (h : i < c.prefixLength) (hsp : sp ∈ c.spans) :
    sp.sharesValue i = true := by
  unfold prefixLength at h
  split at h
  · omega
  · exact prefixFrom_spec.2.2 i (Nat.zero_le i) h sp hsp

/-! ## Rows of a span -/

omit [LinearOrder D] in
theorem OrderingColumn.directed_injective (col : OrderingColumn) :
    Function.Injective (directed (D := D) col) := by
  intro x y h
  cases hdesc : descending col with
  | false =>
    rw [directed_of_ascending hdesc, directed_of_ascending hdesc] at h
    simpa using h
  | true =>
    rw [directed_of_descending hdesc, directed_of_descending hdesc] at h
    simpa using h

namespace Span

theorem Admits.start_le (h : sp.Admits cols row) : values cols sp.startKey ≤
      (values cols row).take (values cols sp.startKey).length ∧
    (sp.startBoundary = .excludeBoundary → values cols sp.startKey <
      (values cols row).take (values cols sp.startKey).length) := by
  have h := h.1
  rw [values_take] at h
  rw [length_values]
  cases hb : sp.startBoundary with
  | includeBoundary =>
    rw [hb] at h
    exact ⟨h, nofun⟩
  | excludeBoundary =>
    rw [hb] at h
    exact ⟨le_of_lt h, fun _ => h⟩

theorem Admits.le_end (h : sp.Admits cols row) :
    (values cols row).take (values cols sp.endKey).length ≤ values cols sp.endKey ∧
    (sp.endBoundary = .excludeBoundary →
      (values cols row).take (values cols sp.endKey).length < values cols sp.endKey) := by
  have h := h.2
  rw [values_take] at h
  rw [length_values]
  cases hb : sp.endBoundary with
  | includeBoundary =>
    rw [hb] at h
    exact ⟨h, nofun⟩
  | excludeBoundary =>
    rw [hb] at h
    exact ⟨le_of_lt h, fun _ => h⟩

/-- Keys that share `n` values have at least as many. -/
theorem length_of_sharesValue (h : ∀ i < n, sp.sharesValue i = true) :
    n ≤ sp.startKey.length ∧ n ≤ sp.endKey.length := by
  cases n with
  | zero => exact ⟨Nat.zero_le _, Nat.zero_le _⟩
  | succ n =>
    obtain ⟨x, hs, he⟩ := sharesValue_iff.mp (h n (Nat.lt_succ_self n))
    exact ⟨(List.getElem?_eq_some_iff.mp hs).1, (List.getElem?_eq_some_iff.mp he).1⟩

variable (h : sp.Admits cols row)
include h

/-- The rows of a span have the values that its keys share. -/
theorem Admits.take_eq (hshare : ∀ i < n, sp.sharesValue i = true) :
    (values cols row).take n = (values cols sp.startKey).take n ∧
      (values cols row).take n = (values cols sp.endKey).take n := by
  have hkeys : sp.startKey.take n = sp.endKey.take n := by
    refine ext_getElem? fun i => ?_
    rw [getElem?_take, getElem?_take]
    split
    · rename_i hi
      obtain ⟨x, hs, he⟩ := sharesValue_iff.mp (hshare i hi)
      rw [hs, he]
    · rfl
  have hvalues : (values cols sp.startKey).take n = (values cols sp.endKey).take n := by
    rw [← values_take, ← values_take, hkeys]
  obtain ⟨hs, he⟩ := length_of_sharesValue hshare
  have heq := take_eq_of_between hvalues (by rwa [length_values]) (by rwa [length_values])
    h.start_le.1 h.le_end.1
  exact ⟨heq, heq.trans hvalues⟩

theorem Admits.getElem?_eq (hshare : ∀ i < n, sp.sharesValue i = true)
    (hi : i < n) : row[i]? = sp.startKey[i]? := by
  have heq := congrArg (fun l => l[i]?) (h.take_eq hshare).1
  rw [getElem?_take_of_lt hi, getElem?_take_of_lt hi, getElem?_values, getElem?_values] at heq
  exact Option.map_injective (directed_injective _) heq

/-- The value of a row after the shared values is at or above the one on the NULL side, and above
it if the boundary is exclusive and the key ends there. -/
theorem Admits.nullSide_le {x y : D}
    (hshare : ∀ i < n, sp.sharesValue i = true) (hy : row[n]? = some y)
    (hx : (sp.nullSide (cols.getD n 1)).1[n]? = some x) :
    x ≤ y ∧ ((sp.nullSide (cols.getD n 1)).2 = .excludeBoundary →
      (sp.nullSide (cols.getD n 1)).1.length = n + 1 → x < y) := by
  obtain ⟨hstart, hend⟩ := h.take_eq hshare
  have hyv : (values cols row)[n]? = some (directed (cols.getD n 1) y) := by
    rw [getElem?_values, hy]
    rfl
  -- as many values of the row as a key has
  have hlead : ∀ k : Key D, k[n]? = some x → (values cols row).take n =
      (values cols k).take n → ∃ t, t = (values cols row).take (values cols k).length ∧
        t.take n = (values cols k).take n ∧
        t[n]? = some (directed (cols.getD n 1) y) ∧
        (values cols k)[n]? = some (directed (cols.getD n 1) x) ∧
        (k.length = n + 1 → (values cols k).length = n + 1 ∧ t.length = n + 1) := by
    intro k hk htake
    have hlen : n < k.length := (List.getElem?_eq_some_iff.mp hk).1
    have hrow : n < (values cols row).length := (List.getElem?_eq_some_iff.mp hyv).1
    rw [length_values, getElem?_values, hk]
    refine ⟨_, rfl, ?_, ?_, rfl, fun hexact => ⟨hexact, ?_⟩⟩
    · rw [take_take, min_eq_left hlen.le, htake]
    · rw [getElem?_take_of_lt hlen, hyv]
    · rw [length_take]
      omega
  unfold nullSide at hx ⊢
  cases hdesc : descending (cols.getD n 1) with
  | false =>
    rw [hdesc] at hx
    obtain ⟨t, ht, htake, hyt, hxv, hlen⟩ := hlead sp.startKey hx hstart
    rw [directed_of_ascending hdesc] at hyt hxv
    obtain ⟨hle, hlt⟩ := h.start_le
    rw [← ht] at hle hlt
    refine ⟨Sum.Lex.inl_le_inl_iff.mp (getElem?_le_of_le hle htake.symm hxv hyt), fun hb hk => ?_⟩
    exact Sum.Lex.inl_lt_inl_iff.mp
      (getElem?_lt_of_lt (hlt hb) htake.symm hxv hyt (hlen hk).1 (hlen hk).2)
  | true =>
    rw [hdesc] at hx
    obtain ⟨t, ht, htake, hyt, hxv, hlen⟩ := hlead sp.endKey hx hend
    rw [directed_of_descending hdesc] at hyt hxv
    obtain ⟨hle, hlt⟩ := h.le_end
    rw [← ht] at hle hlt
    refine ⟨OrderDual.toDual_le_toDual.mp
      (Sum.Lex.inr_le_inr_iff.mp (getElem?_le_of_le hle htake hyt hxv)), fun hb hk => ?_⟩
    exact OrderDual.toDual_lt_toDual.mp (Sum.Lex.inr_lt_inr_iff.mp
      (getElem?_lt_of_lt (hlt hb) htake hyt hxv (hlen hk).2 (hlen hk).1))

end Span

/-! ## Rows of a constraint -/

variable [OrderBot D]

/-- The key on the NULL side has NULL for column `n` and goes on, with an exclusive boundary. -/
def Span.PassesNull (n : Nat) (col : OrderingColumn) (sp : Span D) : Prop :=
  (sp.nullSide col).1[n]? = some ⊥ ∧ (sp.nullSide col).2 = .excludeBoundary ∧
    n + 1 < (sp.nullSide col).1.length

/-- `ExtractNotNullCols` gets to the end: it reports the column after the prefix. -/
def Constraint.ReportsNext (c : Constraint D) : Prop :=
  ¬ (c.isUnconstrained || c.isContradiction) = true ∧ c.prefixLength ≠ c.columns.count ∧
    ¬ c.spans.any (Span.nullable c.prefixLength (c.columns.toList.getD c.prefixLength 1)) = true

/-- The column after the prefix is reported and NULL in the row, which is in a span whose bound
passes NULL there. -/
def Constraint.Leaks (c : Constraint D) (row : ColumnID → D) : Prop :=
  c.ReportsNext ∧ row (OrderingColumn.id (c.columns.toList.getD c.prefixLength 1)) = ⊥ ∧
    ∃ sp ∈ c.spans, sp.PassesNull c.prefixLength (c.columns.toList.getD c.prefixLength 1) ∧
      sp.Admits c.columns.toList
        (c.columns.toList.map fun col => row (OrderingColumn.id col))

variable {row : ColumnID → D} {id : ColumnID}

omit [LinearOrder D] [OrderBot D] in
/-- The value of a row for the column at position `n`. -/
theorem getElem?_rowValues {cols : List OrderingColumn} (hn : n < cols.length) :
    (cols.map fun col => row (OrderingColumn.id col))[n]? =
      some (row (OrderingColumn.id (cols.getD n 1))) := by
  rw [getElem?_map, getElem?_eq_getElem hn, Option.map_some, getD_eq_getElem _ _ hn]

theorem Constraint.notNullPrefix_sound (hrow : c.AdmitsRow row) (hid : id ∈ c.notNullPrefix) :
    row id ≠ ⊥ := by
  obtain ⟨sp, hsp, hadmits⟩ := hrow
  simp only [notNullPrefix, mem_toFinset, mem_map, mem_filter, mem_range] at hid
  obtain ⟨i, ⟨hi, hnone⟩, rfl⟩ := hid
  have hi' : i < c.columns.toList.length := by
    rw [Columns.length_toList]
    exact hi.trans_le c.prefixLength_le
  have heq := hadmits.getElem?_eq (fun j hj => sharesValue_of_lt hj hsp) hi
  rw [getElem?_rowValues hi'] at heq
  intro hnull
  rw [hnull] at heq
  simp only [Bool.not_eq_true', any_eq_false, decide_eq_true_eq] at hnone
  exact hnone sp hsp heq.symm

theorem Span.exists_of_not_nullable {col : OrderingColumn} (h : ¬ sp.nullable n col = true) :
    ∃ x, (sp.nullSide col).1[n]? = some x ∧
      (x = ⊥ → (sp.nullSide col).2 = .excludeBoundary) := by
  unfold nullable at h
  cases hx : (sp.nullSide col).1[n]? with
  | none => simp [hx] at h
  | some x =>
    refine ⟨x, rfl, fun hbot => ?_⟩
    cases hb : (sp.nullSide col).2 with
    | includeBoundary => simp [hx, hb, hbot] at h
    | excludeBoundary => rfl

theorem Constraint.mem_extractNotNullCols (hid : id ∈ c.extractNotNullCols) :
    id ∈ c.notNullPrefix ∨
      c.ReportsNext ∧ id = OrderingColumn.id (c.columns.toList.getD c.prefixLength 1) := by
  unfold extractNotNullCols at hid
  split at hid
  · exact absurd hid (Finset.notMem_empty _)
  rename_i hproper
  split at hid
  · exact .inl hid
  rename_i hne
  dsimp only at hid
  split at hid
  · exact .inl hid
  rename_i hnullable
  rcases Finset.mem_insert.mp hid with rfl | hid
  · exact .inr ⟨⟨hproper, hne, hnullable⟩, rfl⟩
  · exact .inl hid

theorem Constraint.ReportsNext.mem (h : c.ReportsNext) :
    OrderingColumn.id (c.columns.toList.getD c.prefixLength 1) ∈ c.extractNotNullCols := by
  unfold extractNotNullCols
  rw [if_neg h.1, if_neg h.2.1, if_neg h.2.2]
  exact Finset.mem_insert_self _ _

/-- A column that a constraint reports is not NULL in a row of it that does not leak. -/
theorem Constraint.extractNotNullCols_sound (hrow : c.AdmitsRow row) (hleak : ¬ c.Leaks row)
    (hid : id ∈ c.extractNotNullCols) : row id ≠ ⊥ := by
  rcases mem_extractNotNullCols hid with hid | ⟨hnext, rfl⟩
  · exact c.notNullPrefix_sound hrow hid
  · -- the column after the prefix: no span is open to NULL
    intro hnull
    obtain ⟨sp, hsp, hadmits⟩ := hrow
    have hlt : c.prefixLength < c.columns.toList.length := by
      rw [Columns.length_toList]
      exact lt_of_le_of_ne c.prefixLength_le hnext.2.1
    have hclosed : ¬ sp.nullable c.prefixLength
        (c.columns.toList.getD c.prefixLength 1) = true :=
      fun h => hnext.2.2 (any_eq_true.mpr ⟨sp, hsp, h⟩)
    obtain ⟨x, hx, hboundary⟩ := Span.exists_of_not_nullable hclosed
    obtain ⟨hle, hstrict⟩ := hadmits.nullSide_le (fun j hj => sharesValue_of_lt hj hsp)
      (getElem?_rowValues hlt) hx
    have hbot : x = ⊥ := le_bot_iff.mp (hnull ▸ hle)
    subst hbot
    have hexclude := hboundary rfl
    have hlong : c.prefixLength + 1 ≤ (sp.nullSide _).1.length :=
      (List.getElem?_eq_some_iff.mp hx).1
    rcases hlong.eq_or_lt with hends | hon
    · exact (hstrict hexclude hends.symm).ne' hnull
    · exact hleak ⟨hnext, hnull, sp, hsp, ⟨hx, hexclude, hon⟩, hadmits⟩

/-- A row that leaks has NULL in a column that is reported. -/
theorem Constraint.Leaks.exists_null (h : c.Leaks row) :
    c.AdmitsRow row ∧ ∃ id ∈ c.extractNotNullCols, row id = ⊥ := by
  obtain ⟨hnext, hnull, sp, hsp, -, hadmits⟩ := h
  exact ⟨⟨sp, hsp, hadmits⟩, _, hnext.mem, hnull⟩

omit [LinearOrder D] [OrderBot D] in
theorem mem_foldl_union {α : Type*} {f : α → Finset ColumnID} {l : List α}
    {init : Finset ColumnID} :
    id ∈ l.foldl (fun res a => res ∪ f a) init ↔ id ∈ init ∨ ∃ a ∈ l, id ∈ f a := by
  induction l generalizing init with
  | nil => simp
  | cons a l ih => simp [ih, or_assoc]

theorem SetRef.mem_extractNotNullCols {s : SetRef D} {cols : Finset ColumnID}
    (h : s.extractNotNullCols = .ok cols) (hrow : s.Admits row) :
    id ∈ cols ↔ ∃ c ∈ s.constraints, id ∈ c.extractNotNullCols := by
  cases s with
  | unconstrained =>
    cases h
    simp [SetRef.constraints]
  | contradiction => exact absurd rfl hrow.1
  | fresh set =>
    simp only [SetRef.extractNotNullCols] at h
    simp only [SetRef.constraints]
    cases hset : set.constraints with
    | nil =>
      rw [hset] at h
      cases h
    | cons c cs =>
      rw [hset] at h
      cases h
      simp [mem_foldl_union]

/-- Columns reported as not NULL are not NULL, in every row of a constraint and in every row that
satisfies all constraints of a set, iff none of these rows leaks. -/
theorem notNull_sound :
    (∀ c : Constraint D,
      (∀ id ∈ c.extractNotNullCols, ∀ row : ColumnID → D, c.AdmitsRow row → row id ≠ ⊥) ↔
        ∀ row, ¬ c.Leaks row) ∧
    ∀ (s : SetRef D) cols, s.extractNotNullCols = .ok cols →
      ((∀ id ∈ cols, ∀ row : ColumnID → D, s.Admits row → row id ≠ ⊥) ↔
        ∀ row, s.Admits row → ∀ c ∈ s.constraints, ¬ c.Leaks row) := by
  refine ⟨fun c => ⟨fun hsound row hleak => ?_, fun hno id hid row hrow => ?_⟩,
    fun s cols hcols => ⟨fun hsound row hrow c hc hleak => ?_, fun hno id hid row hrow => ?_⟩⟩
  · obtain ⟨hrow, id, hid, hnull⟩ := hleak.exists_null
    exact hsound id hid row hrow hnull
  · exact Constraint.extractNotNullCols_sound hrow (hno row) hid
  · obtain ⟨-, id, hid, hnull⟩ := hleak.exists_null
    exact hsound id ((SetRef.mem_extractNotNullCols hcols hrow).mpr ⟨c, hc, hid⟩) row hrow hnull
  · obtain ⟨c, hc, hid⟩ := (SetRef.mem_extractNotNullCols hcols hrow).mp hid
    exact Constraint.extractNotNullCols_sound (hrow.2 c hc) (hno row hrow c hc) hid

/-- `[/1/NULL - /2) (/2/3 - /4]` -/
def twoRanges : Constraint (WithBot ℕ) where
  columns := { firstCol := 1, otherCols := [2] }
  spans := [{ startKey := [datum 1, ⊥], endKey := [datum 2], endBoundary := .excludeBoundary },
    { startKey := [datum 2, datum 3], startBoundary := .excludeBoundary, endKey := [datum 4] }]

theorem notNull_sound_twoRanges : twoRanges.extractNotNullCols = {1} ∧
    ∀ row : ColumnID → WithBot ℕ, (SetRef.fresh ⟨[twoRanges], none⟩).Admits row → row 1 ≠ ⊥ := by
  have hcols : (SetRef.fresh ⟨[twoRanges], none⟩).extractNotNullCols = .ok {1} := by decide
  refine ⟨by decide, (notNull_sound.2 _ _ hcols).mpr ?_ 1 (by decide)⟩
  rintro row - c hc ⟨-, -, sp, hsp, ⟨hnull, -⟩, -⟩
  -- no start key has NULL in the first column
  rw [List.mem_singleton.mp hc] at hsp hnull
  revert sp
  decide

/-- `(/NULL/5 - /10]` -/
def fromNull : Constraint (WithBot ℕ) where
  columns := { firstCol := 1, otherCols := [2] }
  spans := [{ startKey := [⊥, datum 5], startBoundary := .excludeBoundary, endKey := [datum 10] }]

/-- The first column of `(/NULL/5 - /10]` is reported, but the row `NULL, 6` is in the span. -/
theorem notNull_unsound : fromNull.WellFormed ∧ 1 ∈ fromNull.extractNotNullCols ∧
      ∃ row : ColumnID → WithBot ℕ, fromNull.AdmitsRow row ∧ row 1 = ⊥ ∧ row 2 = datum 6 := by
  refine ⟨by decide, by decide, fun id => if id = 1 then ⊥ else datum 6, ?_, rfl, rfl⟩
  show fromNull.Admits [⊥, datum 6]
  decide

end

end Cockroach.Opt
