import Cockroach.Lib.ExtendedKeys

/-!
# Constraint keys (`sql/opt/constraint/key.go`, `columns.go`)

Keys are tuples of datums over a list of columns, each ascending or descending. Datums are
totally ordered with NULL first. Two keys of different lengths are compared as if they were
extended by an infinity: `Key.compare` is the comparison of their bounds in one linear order
(`Key.compare_eq`).
-/

namespace Cockroach.Opt

open Lib

/-- `opt.OrderingColumn`: the id of a column, negated if the order is descending. -/
abbrev OrderingColumn := Int

/-- `opt.ColumnID` -/
abbrev ColumnID := Nat

def OrderingColumn.id (c : OrderingColumn) : ColumnID := c.natAbs

def OrderingColumn.descending (c : OrderingColumn) : Bool := c < 0

/-- `constraint.Columns`: there is at least one column. -/
structure Columns where
  firstCol : OrderingColumn
  otherCols : List OrderingColumn := []
  deriving DecidableEq, Repr

def Columns.toList (c : Columns) : List OrderingColumn := c.firstCol :: c.otherCols

def Columns.count (c : Columns) : Nat := 1 + c.otherCols.length

theorem Columns.length_toList (c : Columns) : c.toList.length = c.count := by
  rw [Columns.toList, Columns.count, List.length_cons, Nat.add_comm]

/-- `constraint.Key`: no values is the empty key. -/
abbrev Key (D : Type) := List D

inductive KeyExtension where
  | extendLow
  | extendHigh
  deriving DecidableEq, Repr

def KeyExtension.toCmp : KeyExtension → Int
  | .extendLow => -1
  | .extendHigh => 1

variable {D : Type}

/-- `KeyContext.Compare`, of two values of one column. -/
def OrderingColumn.compare [LinearOrder D] (c : OrderingColumn) (a b : D) : Int :=
  if a = b then 0
  else if OrderingColumn.descending c then -threeWay a b
  else threeWay a b

/-- The part of `Key.Compare` after the loop: one key has no values left. -/
def Key.compareTails (k l : Key D) (kext lext : KeyExtension) : Int :=
  if k.length < l.length then kext.toCmp
  else if l.length < k.length then -lext.toCmp
  else if kext = lext then 0
  else kext.toCmp

/-- `Key.Compare`. Keys have at most one value for each column; a value beyond the columns,
which the source cannot look at, counts as one of an ascending column. -/
def Key.compare [LinearOrder D] (kext lext : KeyExtension) :
    List OrderingColumn → Key D → Key D → Int
  | cols, x :: k, y :: l =>
    if OrderingColumn.compare (cols.headD 1) x y ≠ 0 then
      OrderingColumn.compare (cols.headD 1) x y
    else Key.compare kext lext cols.tail k l
  | _, k, l => Key.compareTails k l kext lext

/-! ## The order of bounds -/

/-- The values of a column in its order. -/
abbrev Directed (D : Type) := D ⊕ₗ Dᵒᵈ

def OrderingColumn.directed (c : OrderingColumn) (x : D) : Directed D :=
  if OrderingColumn.descending c then Sum.inrₗ (OrderDual.toDual x) else Sum.inlₗ x

theorem OrderingColumn.directed_of_descending {c : OrderingColumn}
    (h : OrderingColumn.descending c = true) (x : D) :
    OrderingColumn.directed c x = Sum.inrₗ (OrderDual.toDual x) := if_pos h

theorem OrderingColumn.directed_of_ascending {c : OrderingColumn}
    (h : OrderingColumn.descending c = false) (x : D) :
    OrderingColumn.directed c x = Sum.inlₗ x := by
  rw [OrderingColumn.directed, h]
  rfl

/-- The values of a key, each in the order of its column. -/
def Key.values : List OrderingColumn → Key D → List (Directed D)
  | _, [] => []
  | cols, x :: k => OrderingColumn.directed (cols.headD 1) x :: Key.values cols.tail k

variable (cols : List OrderingColumn)

@[simp] theorem Key.values_nil : Key.values cols ([] : Key D) = [] := by
  cases cols <;> rfl

theorem Key.values_cons (x : D) (k : Key D) : Key.values cols (x :: k) =
      OrderingColumn.directed (cols.headD 1) x :: Key.values cols.tail k := rfl

@[simp] theorem Key.length_values (k : Key D) : (Key.values cols k).length = k.length := by
  induction k generalizing cols with
  | nil => simp
  | cons x k ih => simp [Key.values, ih]

theorem Key.values_take (k : Key D) (n : Nat) :
    Key.values cols (k.take n) = (Key.values cols k).take n := by
  induction k generalizing cols n with
  | nil => simp
  | cons x k ih =>
    cases n with
    | zero => simp
    | succ n => simp [Key.values, ih]

theorem Key.getElem?_values (k : Key D) (n : Nat) :
    (Key.values cols k)[n]? = k[n]?.map (OrderingColumn.directed (cols.getD n 1)) := by
  induction k generalizing cols n with
  | nil => simp
  | cons x k ih =>
    rw [Key.values_cons]
    cases n with
    | zero => cases cols <;> rfl
    | succ n =>
      rw [List.getElem?_cons_succ, ih, List.getElem?_cons_succ]
      cases cols <;> rfl

/-- What a key is extended with. -/
def KeyExtension.digit : KeyExtension → Digit (Directed D)
  | .extendLow => ⊥
  | .extendHigh => ⊤

/-- A key with its extension, as a bound. -/
def Key.position (k : Key D) (ext : KeyExtension) : List (Digit (Directed D)) :=
  bound ext.digit (Key.values cols k)

@[simp] theorem Key.position_nil (ext : KeyExtension) :
    Key.position cols ([] : Key D) ext = [ext.digit] := by
  rw [Key.position, Key.values_nil, bound_nil]

@[simp] theorem Key.position_cons (x : D) (k : Key D)
    (ext : KeyExtension) : Key.position cols (x :: k) ext =
      .val (OrderingColumn.directed (cols.headD 1) x) :: Key.position cols.tail k ext := rfl

variable [LinearOrder D]

theorem OrderingColumn.compare_eq (c : OrderingColumn) (a b : D) : OrderingColumn.compare c a b =
      threeWay (OrderingColumn.directed c a) (OrderingColumn.directed c b) := by
  unfold OrderingColumn.compare
  split
  · rename_i heq
    rw [heq, threeWay_self]
  · cases hdesc : OrderingColumn.descending c with
    | false =>
      rw [directed_of_ascending hdesc, directed_of_ascending hdesc]
      exact (threeWay_congr Sum.Lex.inl_lt_inl_iff a b).symm
    | true =>
      rw [directed_of_descending hdesc, directed_of_descending hdesc]
      show -threeWay a b = _
      rw [neg_threeWay]
      exact (threeWay_congr (f := fun x : Dᵒᵈ => (Sum.inrₗ x : Directed D))
        Sum.Lex.inr_lt_inr_iff (OrderDual.toDual a) (OrderDual.toDual b)).symm

theorem Key.compareTails_nil (kext lext : KeyExtension) :
    Key.compareTails ([] : Key D) [] kext lext =
      threeWay [(kext.digit : Digit (Directed D))] [lext.digit] := by
  have hlt : ([⊥] : List (Digit (Directed D))) < [⊤] :=
    List.cons_lt_cons_iff.mpr (.inl (WithBot.bot_lt_coe _))
  cases kext with
  | extendLow =>
    cases lext with
    | extendLow => exact (threeWay_self _).symm
    | extendHigh => exact (threeWay_of_lt hlt).symm
  | extendHigh =>
    cases lext with
    | extendLow => exact (threeWay_of_gt hlt).symm
    | extendHigh => exact (threeWay_self _).symm

/-- An extension against a value. -/
theorem KeyExtension.threeWay_digit (ext : KeyExtension) (v : Directed D)
    (p q : List (Digit (Directed D))) : threeWay (ext.digit :: p) (.val v :: q) = ext.toCmp := by
  cases ext with
  | extendLow => exact threeWay_of_lt (List.cons_lt_cons_iff.mpr (.inl (Digit.bot_lt_val v)))
  | extendHigh => exact threeWay_of_gt (List.cons_lt_cons_iff.mpr (.inl (Digit.val_lt_top v)))

/-- Keys are compared as bounds. -/
theorem Key.compare_eq (kext lext : KeyExtension) (k l : Key D) : Key.compare kext lext cols k l =
      threeWay (Key.position cols k kext) (Key.position cols l lext) := by
  induction k generalizing cols l with
  | nil =>
    cases l with
    | nil =>
      rw [Key.position_nil, Key.position_nil, ← Key.compareTails_nil]
      simp [Key.compare]
    | cons y l =>
      rw [Key.position_nil, Key.position_cons, KeyExtension.threeWay_digit]
      simp [Key.compare, Key.compareTails]
  | cons x k ih =>
    cases l with
    | nil =>
      rw [Key.position_nil, Key.position_cons, ← neg_threeWay, KeyExtension.threeWay_digit]
      simp [Key.compare, Key.compareTails]
    | cons y l =>
      rw [Key.compare, ih, Key.position_cons, Key.position_cons, threeWay_cons,
        threeWay_congr Digit.val_lt_val, ← OrderingColumn.compare_eq]

end Cockroach.Opt
