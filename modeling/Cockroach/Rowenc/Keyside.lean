import Cockroach.Encoding.PeekLength

/-!
# Datums in keys (`pkg/sql/rowenc/keyside`)

`Encode` writes a datum as part of an index key, in ascending or descending order, and
`Decode` reads it back given its type. Arrays are written element by element between a
marker and a terminator, with a byte of its own for NULL; reading one appends the elements
to a new array, with the checks of `DArray.Append`.

`Encode` and `Decode` are modelled on the types whose encoders are in this development:
integers, log sequence numbers, strings and bytes, decimals, timestamps, times with a time
zone, intervals, bit arrays, and arrays of these to any depth.

The main result is `peekLength_encode`: `PeekLength` agrees with `Encode`, and `Decode`
leaves exactly what follows the value.
-/

namespace Cockroach.Keyside

open Lib Encoding List

/-! ## Types and datums -/

/-- The type families of `Decode`, with the type of the contents of an array. -/
inductive Typ where
  | int
  | pgLSN
  | string
  | bytes
  | decimal
  | timestamp
  | timeTZ
  | interval
  | bit
  | array (contents : Typ)
  deriving DecidableEq, Repr

inductive Datum where
  /-- `DNull` -/
  | null
  | int (v : Int64)
  | pgLSN (v : UInt64)
  | string (v : List UInt8)
  | bytes (v : List UInt8)
  | decimal (v : Decimal)
  | timestamp (v : Time)
  | timeTZ (v : TimeTZ)
  | interval (v : Duration)
  | bitArray (v : BitArray)
  /-- `DArray`: the type of the elements and the elements -/
  | array (paramTyp : Typ) (elems : List Datum)

namespace Datum

/-- `ResolvedType`; none is the unknown type of NULL. -/
def resolvedType : Datum → Option Typ
  | .null => none
  | .int _ => some .int
  | .pgLSN _ => some .pgLSN
  | .string _ => some .string
  | .bytes _ => some .bytes
  | .decimal _ => some .decimal
  | .timestamp _ => some .timestamp
  | .timeTZ _ => some .timeTZ
  | .interval _ => some .interval
  | .bitArray _ => some .bit
  | .array t _ => some (.array t)

/-- `DArray.Len`. -/
def len : Datum → Nat
  | .array _ elems => elems.length
  | _ => 0

end Datum

inductive Failure where
  | encoding (e : Encoding.Failure)
  /-- invalid type found where an array starts -/
  | invalidType
  /-- invalid array encoding (unterminated) -/
  | unterminated
  /-- cannot append to array -/
  | cannotAppend (t : Option Typ) (paramTyp : Typ)
  /-- ARRAYs can be at most 2^31-1 elements long -/
  | arrayTooLong
  /-- multidimensional arrays must have array expressions with matching dimensions -/
  | nonHomogeneousArray
  deriving DecidableEq

/-! ## `DArray.Append` -/

def maxArrayLength : Nat := 2 ^ 31 - 1

def Typ.isArray : Typ → Bool
  | .array _ => true
  | _ => false

/-- The check of `Append` on the elements of an array of arrays: `v` after `prevItem`. -/
def homogeneous (prevItem : Option Datum) (v : Datum) : Bool :=
  v.resolvedType.isSome && match prevItem with
    | none => true
    | some p => p.resolvedType.isSome && v.len == p.len

/-- `DArray.Append`. On the types here equivalent types are equal. -/
def append (paramTyp : Typ) (arr : List Datum) (v : Datum) : Except Failure (List Datum) :=
  if v.resolvedType ≠ some paramTyp ∧ v.resolvedType ≠ none then
    .error (.cannotAppend v.resolvedType paramTyp)
  else if arr.length ≥ maxArrayLength then .error .arrayTooLong
  else if paramTyp.isArray ∧ ¬ homogeneous arr.getLast? v then .error .nonHomogeneousArray
  else if (arr ++ [v]).length > maxArrayLength then .error .arrayTooLong
  else .ok (arr ++ [v])

/-! ## `Encode` -/

/-- The version of an encoder or decoder for a direction. -/
def pick {α : Type} (dir : Direction) (ascending descending : α) : α :=
  match dir with
  | .ascending => ascending
  | .descending => descending

/-- `EncodeNullAscending` and `EncodeNullDescending`. -/
def encodeNull (dir : Direction) : List UInt8 := [pick dir encodedNull encodedNullDesc]

/-- `ascendingNullWithinArrayKey` and `descendingNullWithinArrayKey`. -/
def nullWithinArrayKey (dir : Direction) : UInt8 := pick dir 0x01 0xfe

/-- `EncodeArrayKeyMarker`. -/
def arrayMarker (dir : Direction) : UInt8 := pick dir arrayKeyMarker arrayKeyDescendingMarker

mutual

/-- `Encode`, from an empty buffer. -/
def encode (dir : Direction) : Datum → Except Failure (List UInt8)
  | .null => .ok (encodeNull dir)
  | .int v => .ok (pick dir encodeVarintAscending encodeVarintDescending v)
  | .pgLSN v => .ok (pick dir encodeUvarintAscending encodeUvarintDescending v)
  | .string v => .ok (pick dir encodeBytesAscending encodeBytesDescending v)
  | .bytes v => .ok (pick dir encodeBytesAscending encodeBytesDescending v)
  | .decimal v =>
    (pick dir encodeDecimalAscending encodeDecimalDescending v).mapError .encoding
  | .timestamp v => .ok (pick dir encodeTimeAscending encodeTimeDescending v)
  | .timeTZ v => .ok (pick dir encodeTimeTZAscending encodeTimeTZDescending v)
  | .interval v =>
    (pick dir encodeDurationAscending encodeDurationDescending v).mapError .encoding
  | .bitArray v => .ok (pick dir encodeBitArrayAscending encodeBitArrayDescending v)
  | .array _ elems => do
      -- `encodeArrayKey`
      let codes ← encodeElems dir elems
      .ok (arrayMarker dir :: (codes ++ [keyTerminator dir]))

/-- The loop of `encodeArrayKey`. -/
def encodeElems (dir : Direction) : List Datum → Except Failure (List UInt8)
  | [] => .ok []
  | elem :: elems => do
      let code ← if elem.resolvedType = none then .ok [nullWithinArrayKey dir] else encode dir elem
      let codes ← encodeElems dir elems
      .ok (code ++ codes)

end

/-! ## `Decode` -/

/-- A decoder of the `encoding` package, with a constructor of datums. -/
def readAs {α : Type} (mk : α → Datum)
    (read : List UInt8 → Except Encoding.Failure (List UInt8 × α)) (key : List UInt8) :
    Except Failure (List UInt8 × Datum) := do
  let (rkey, v) ← (read key).mapError .encoding
  .ok (rkey, mk v)

/-- `DecodeIfNull`, and the decoder for a key that does not start with a NULL. -/
def orNull (read : List UInt8 → Except Failure (List UInt8 × Datum)) :
    List UInt8 → Except Failure (List UInt8 × Datum)
  | [] => read []
  | c :: key => if c = encodedNull ∨ c = encodedNullDesc then .ok (key, .null) else read (c :: key)

/-- The loop of `decodeArrayKey`; every element takes a byte at least. -/
def decodeElems (dir : Direction) (contents : Typ)
    (decodeElem : List UInt8 → Except Failure (List UInt8 × Datum)) :
    Nat → List Datum → List UInt8 → Except Failure (List UInt8 × Datum)
  | 0, _, _ => .error .unterminated
  | _ + 1, _, [] => .error .unterminated
  | fuel + 1, result, c :: buf =>
    if c = keyTerminator dir then .ok (buf, .array contents result)
    else do
      let (buf, d) ←
        (if c = nullWithinArrayKey dir then .ok (buf, .null) else decodeElem (c :: buf))
      let result ← append contents result d
      decodeElems dir contents decodeElem fuel result buf

/-- `decodeArrayKey`. -/
def decodeArrayKey (dir : Direction) (contents : Typ)
    (decodeElem : List UInt8 → Except Failure (List UInt8 × Datum)) :
    List UInt8 → Except Failure (List UInt8 × Datum)
  | [] => .error .invalidType
  | c :: buf =>
    if c ≠ arrayMarker dir then .error .invalidType
    else decodeElems dir contents decodeElem (buf.length + 1) [] buf

/-- `Decode`. -/
def decode (dir : Direction) : Typ → List UInt8 → Except Failure (List UInt8 × Datum)
  | .int => orNull (readAs .int (pick dir decodeVarintAscending decodeVarintDescending))
  | .pgLSN => orNull (readAs .pgLSN (pick dir decodeUvarintAscending decodeUvarintDescending))
  | .string => orNull (readAs .string (pick dir decodeBytesAscending decodeBytesDescending))
  | .bytes => orNull (readAs .bytes (pick dir decodeBytesAscending decodeBytesDescending))
  | .decimal => orNull (readAs .decimal (pick dir decodeDecimalAscending decodeDecimalDescending))
  | .timestamp => orNull (readAs .timestamp (pick dir decodeTimeAscending decodeTimeDescending))
  | .timeTZ => orNull (readAs .timeTZ (pick dir decodeTimeTZAscending decodeTimeTZDescending))
  | .interval =>
    orNull (readAs .interval (pick dir decodeDurationAscending decodeDurationDescending))
  | .bit => orNull (readAs .bitArray (pick dir decodeBitArrayAscending decodeBitArrayDescending))
  | .array contents => orNull (decodeArrayKey dir contents (decode dir contents))

/-! ## The values of a type -/

/-- The datums of a type that can be written: NULL and those of the type itself. A decimal is
not a signalling not-a-number, which the SQL layer turns into a quiet one, an interval can be
encoded, and an array is one that `Append` makes of its elements. -/
def OfType : Typ → Datum → Prop
  | _, .null => True
  | .int, .int _ => True
  | .pgLSN, .pgLSN _ => True
  | .string, .string _ => True
  | .bytes, .bytes _ => True
  | .decimal, .decimal v => v.form ≠ .nanSignaling
  | .timestamp, .timestamp _ => True
  | .timeTZ, .timeTZ _ => True
  | .interval, .interval v => ∃ parts, v.encode = .ok parts
  | .bit, .bitArray _ => True
  | .array t, .array paramTyp elems =>
    paramTyp = t ∧ (∀ e ∈ elems, OfType t e) ∧ elems.foldlM (append t) [] = .ok elems
  | _, _ => False

/-! ## Shapes

What is read back need not be the datum that was written (a decimal loses its trailing
zeros), but it has the same type and length, which is all that `Append` looks at. -/

def Datum.SameShape (d d' : Datum) : Prop := d.resolvedType = d'.resolvedType ∧ d.len = d'.len

theorem Datum.SameShape.refl (d : Datum) : d.SameShape d := ⟨rfl, rfl⟩

theorem homogeneous_congr {p p' : Option Datum} {v v' : Datum}
    (hp : Option.Rel Datum.SameShape p p') (hv : v.SameShape v') :
    homogeneous p v = homogeneous p' v' := by
  cases hp with
  | none => simp only [homogeneous, hv.1]
  | some h => simp only [homogeneous, hv.1, hv.2, h.1, h.2]

theorem getLast?_congr {arr arr' : List Datum} (h : Forall₂ Datum.SameShape arr arr') :
    Option.Rel Datum.SameShape arr.getLast? arr'.getLast? := by
  induction h with
  | nil => exact .none
  | cons h hs ih =>
    cases hs with
    | nil => exact .some h
    | cons h' hs' =>
      rw [getLast?_cons_cons, getLast?_cons_cons]
      exact ih

/-- `Append` looks at shapes only. -/
theorem append_congr {t : Typ} {arr arr' : List Datum} {v v' : Datum}
    (h : Forall₂ Datum.SameShape arr arr') (hv : v.SameShape v')
    (happend : append t arr v = .ok (arr ++ [v])) : append t arr' v' = .ok (arr' ++ [v']) := by
  have hlen := h.length_eq
  have hlast := homogeneous_congr (getLast?_congr h) hv
  unfold append at happend ⊢
  rw [hv.1, hlast, length_append, hlen, length_singleton] at happend
  rw [length_append, length_singleton]
  split_ifs at happend ⊢ with h₁ h₂ h₃ h₄
  rfl

variable {v : Datum}

theorem append_eq {t : Typ} {arr result : List Datum}
    (h : append t arr v = .ok result) : result = arr ++ [v] := by
  unfold append at h
  split_ifs at h
  exact (Except.ok.inj h).symm

theorem foldlM_append_cons {t : Typ} {arr elems result : List Datum}
    (h : (v :: elems).foldlM (append t) arr = .ok result) :
    append t arr v = .ok (arr ++ [v]) ∧ elems.foldlM (append t) (arr ++ [v]) = .ok result := by
  rw [foldlM_cons] at h
  obtain ⟨arr', hv, helems⟩ := bind_eq_ok.mp h
  obtain rfl := append_eq hv
  exact ⟨hv, helems⟩

/-! ## Codes -/

/-- A code is measured whatever follows it, and read as a datum of the same shape. -/
structure CodeOf (dir : Direction) (t : Typ) (v : Datum) (code : List UInt8) : Prop where
  head : ∃ c rest, code = c :: rest ∧ 2 ≤ c.toNat ∧ c.toNat ≤ 253
  measures : ∀ depth, code.length ≤ depth → Measures (peekLengthAt depth) code
  reads : ∀ s, ∃ v', v.SameShape v' ∧ decode dir t (code ++ s) = .ok (s, v')

/-- The code of an element of an array. -/
inductive ElemCode (dir : Direction) (t : Typ) : Datum → List UInt8 → Prop
  | null : ElemCode dir t .null [nullWithinArrayKey dir]
  | code {v : Datum} {code : List UInt8} (h : CodeOf dir t v code) (hv : v.resolvedType ≠ none) :
      ElemCode dir t v code

section Codes

variable {dir : Direction} {t : Typ}

variable {code : List UInt8} {e : Datum} {elems : List Datum}

/-- A code that does not start with a NULL is read by the decoder of its type. -/
theorem orNull_append (s : List UInt8) (read : List UInt8 → Except Failure (List UInt8 × Datum))
    (hhead : ∃ c rest, code = c :: rest ∧ 2 ≤ c.toNat ∧ c.toNat ≤ 253) :
    orNull read (code ++ s) = read (code ++ s) := by
  obtain ⟨c, rest, rfl, hlow, hhigh⟩ := hhead
  have hnull : ¬ (c = encodedNull ∨ c = encodedNullDesc) := by
    rintro (rfl | rfl)
    · exact absurd hlow (by decide)
    · exact absurd hhigh (by decide)
  rw [cons_append]
  simp only [orNull, if_neg hnull]

/-- The code of a value that is not an array. -/
theorem codeOf_scalar {α : Type} {mk : α → Datum}
    {read : List UInt8 → Except Encoding.Failure (List UInt8 × α)}
    (hdecode : decode dir t = orNull (readAs mk read))
    (hhead : ∃ c rest, code = c :: rest ∧ 2 ≤ c.toNat ∧ c.toNat ≤ 253)
    (hmeasures : ∀ depth, Measures (peekLengthAt (depth + 1)) code)
    (hshape : ∀ a, v.SameShape (mk a)) (hreads : ∀ s, ∃ a, read (code ++ s) = .ok (s, a)) :
    CodeOf dir t v code := by
  refine ⟨hhead, fun depth hdepth => ?_, fun s => ?_⟩
  · obtain ⟨c, rest, rfl, -, -⟩ := hhead
    rw [length_cons] at hdepth
    obtain ⟨depth, rfl⟩ : ∃ k, depth = k + 1 := ⟨depth - 1, by omega⟩
    exact hmeasures depth
  · obtain ⟨a, hread⟩ := hreads s
    refine ⟨mk a, hshape a, ?_⟩
    rw [hdecode, orNull_append s _ hhead, readAs, hread]
    rfl

theorem codeOf_varint {α : Type} {mk : α → Datum} {a : α}
    {read : List UInt8 → Except Encoding.Failure (List UInt8 × α)}
    (hdecode : decode dir t = orNull (readAs mk read)) (hcode : IsVarint code)
    (hshape : ∀ b, (mk a).SameShape (mk b)) (hreads : Reads read code a) :
    CodeOf dir t (mk a) code := by
  refine codeOf_scalar hdecode ?_ (fun _ => peekLengthAt_varint hcode) hshape
    fun s => ⟨a, hreads s⟩
  obtain ⟨c, rest, heq, hlow, hhigh⟩ := hcode.head
  unfold intMin at hlow
  unfold intMax at hhigh
  exact ⟨c, rest, heq, by omega, hhigh⟩

theorem codeOf_int (v : Int64) :
    CodeOf dir .int (.int v) (pick dir encodeVarintAscending encodeVarintDescending v) := by
  cases dir with
  | ascending =>
    exact codeOf_varint rfl (isVarint_varintAscending v) (fun _ => ⟨rfl, rfl⟩)
      (reads_varintAscending v)
  | descending =>
    exact codeOf_varint rfl (isVarint_varintDescending v) (fun _ => ⟨rfl, rfl⟩)
      (reads_varintDescending v)

theorem codeOf_pgLSN (v : UInt64) :
    CodeOf dir .pgLSN (.pgLSN v) (pick dir encodeUvarintAscending encodeUvarintDescending v) := by
  cases dir with
  | ascending =>
    exact codeOf_varint rfl (isVarint_uvarintAscending v) (fun _ => ⟨rfl, rfl⟩)
      (reads_uvarintAscending v)
  | descending =>
    exact codeOf_varint rfl (isVarint_uvarintDescending v) (fun _ => ⟨rfl, rfl⟩)
      (reads_uvarintDescending v)

/-- Strings and bytes have the same codes. -/
theorem codeOf_bytes {mk : List UInt8 → Datum} (v : List UInt8) (hdecode : decode dir t =
      orNull (readAs mk (pick dir decodeBytesAscending decodeBytesDescending)))
    (hshape : ∀ w, (mk v).SameShape (mk w)) :
    CodeOf dir t (mk v) (pick dir encodeBytesAscending encodeBytesDescending v) := by
  cases dir with
  | ascending =>
    exact codeOf_scalar hdecode ⟨_, _, rfl, by decide, by decide⟩
      (fun _ => peekLengthAt_bytes proper_ascending (by decide) v) hshape
      fun s => ⟨v, reads_bytesAscending v s⟩
  | descending =>
    refine codeOf_scalar hdecode ⟨_, _, rfl, by decide, by decide⟩ (fun _ => ?_) hshape
      fun s => ⟨v, reads_bytesDescending v s⟩
    show Measures _ (encodeBytesDescending v)
    rw [encodeBytesDescending_eq]
    exact peekLengthAt_bytes proper_descending (by decide) _

theorem measures_twoVarints {m : UInt8} (hm : peekKind m = .varints 2) (first second : Int64)
    (depth : Nat) : Measures (peekLengthAt (depth + 1))
      (m :: (encodeVarintAscending first ++ encodeVarintAscending second)) := by
  have hflat : encodeVarintAscending first ++ encodeVarintAscending second =
      [encodeVarintAscending first, encodeVarintAscending second].flatten := by simp
  rw [hflat]
  refine peekLengthAt_varints hm fun c hc => ?_
  simp only [mem_cons, not_mem_nil, or_false] at hc
  rcases hc with rfl | rfl <;> exact isVarint_varintAscending _

theorem codeOf_timestamp (v : Time) : CodeOf dir .timestamp (.timestamp v)
    (pick dir encodeTimeAscending encodeTimeDescending v) := by
  cases dir with
  | ascending =>
    exact codeOf_scalar rfl ⟨_, _, rfl, by decide, by decide⟩
      (measures_twoVarints (by decide) _ _) (fun _ => ⟨rfl, rfl⟩)
      fun s => ⟨_, reads_timeAscending v s⟩
  | descending =>
    exact codeOf_scalar rfl ⟨_, _, rfl, by decide, by decide⟩
      (measures_twoVarints (by decide) _ _) (fun _ => ⟨rfl, rfl⟩)
      fun s => ⟨_, reads_timeDescending v s⟩

/-- The code of a `TimeTZ` is read as a marker and two varints, whatever they are. -/
theorem codeOf_encodeTimeTZ {v : TimeTZ} {unixMicros : Int64} {offsetSecs : Int32}
    {read : List UInt8 → Except Encoding.Failure (List UInt8 × TimeTZ)}
    (hdecode : decode dir .timeTZ = orNull (readAs .timeTZ read))
    (hreads : Reads read (encodeTimeTZ unixMicros offsetSecs) v) :
    CodeOf dir .timeTZ (.timeTZ v) (encodeTimeTZ unixMicros offsetSecs) :=
  codeOf_scalar hdecode ⟨_, _, rfl, by decide, by decide⟩
    (measures_twoVarints (by decide) _ _) (fun _ => ⟨rfl, rfl⟩) fun s => ⟨v, hreads s⟩

theorem codeOf_timeTZ (v : TimeTZ) : CodeOf dir .timeTZ (.timeTZ v)
    (pick dir encodeTimeTZAscending encodeTimeTZDescending v) := by
  cases dir with
  | ascending => exact codeOf_encodeTimeTZ rfl (reads_timeTZAscending v)
  | descending => exact codeOf_encodeTimeTZ rfl (reads_timeTZDescending v)

theorem measures_duration {encodeVarint : Int64 → List UInt8}
    (hcode : ∀ v, IsVarint (encodeVarint v)) (sortNanos months days : Int64) (depth : Nat) :
    Measures (peekLengthAt (depth + 1)) (durationMarker ::
      (encodeVarint sortNanos ++ (encodeVarint months ++ encodeVarint days))) := by
  have hflat : encodeVarint sortNanos ++ (encodeVarint months ++ encodeVarint days) =
      [encodeVarint sortNanos, encodeVarint months, encodeVarint days].flatten := by simp
  have hmarker : peekKind durationMarker = .varints 3 := by decide
  rw [hflat]
  refine peekLengthAt_varints hmarker fun c hc => ?_
  simp only [mem_cons, not_mem_nil, or_false] at hc
  rcases hc with rfl | rfl | rfl <;> exact hcode _

theorem codeOf_interval {v : Duration} (hv : ∃ parts, v.encode = .ok parts) :
    ∃ code, encode dir (.interval v) = .ok code ∧ CodeOf dir .interval (.interval v) code := by
  obtain ⟨⟨sortNanos, months, days⟩, hv⟩ := hv
  cases dir with
  | ascending =>
    refine ⟨_, ?_, codeOf_scalar rfl ⟨_, _, rfl, by decide, by decide⟩
      (measures_duration isVarint_varintAscending sortNanos months days) (fun _ => ⟨rfl, rfl⟩)
      fun s => ⟨v, reads_decodeDuration reads_varintAscending hv s⟩⟩
    simp only [encode, pick, encodeDurationAscending, hv]
    rfl
  | descending =>
    refine ⟨_, ?_, codeOf_scalar rfl ⟨_, _, rfl, by decide, by decide⟩
      (measures_duration isVarint_varintDescending sortNanos months days) (fun _ => ⟨rfl, rfl⟩)
      fun s => ⟨v, reads_decodeDuration reads_varintDescending hv s⟩⟩
    simp only [encode, pick, encodeDurationDescending, hv]
    rfl

theorem codeOf_bitArray (v : BitArray) : CodeOf dir .bit (.bitArray v)
    (pick dir encodeBitArrayAscending encodeBitArrayDescending v) := by
  cases dir with
  | ascending =>
    exact codeOf_scalar rfl ⟨_, _, rfl, by decide, by decide⟩
      (fun _ => peekLengthAt_bitArray (by decide) isVarint_uvarintAscending (by decide) v)
      (fun _ => ⟨rfl, rfl⟩) fun s => ⟨v, reads_bitArrayAscending v s⟩
  | descending =>
    exact codeOf_scalar rfl ⟨_, _, rfl, by decide, by decide⟩
      (fun _ => peekLengthAt_bitArray (by decide) isVarint_uvarintDescending (by decide) v)
      (fun _ => ⟨rfl, rfl⟩) fun s => ⟨v, reads_bitArrayDescending v s⟩

/-- Any exponent and any mantissa of base-100 digits make a decimal. -/
theorem exists_makeDecimalFromMandE (negative : Bool) (e : Int) (x : Normalized 100) :
    ∃ d, makeDecimalFromMandE negative e (mantissa x.digits) = .ok d := by
  unfold makeDecimalFromMandE
  rw [if_neg (mantissa_ne_nil x.ne_nil), base10_mantissa x.trimmed.digit_lt]
  exact ⟨_, rfl⟩

/-- The code of a decimal is read as some decimal, whatever the exponent. -/
theorem exists_decodeDecimal {d : Decimal} {r : Nat} (h : Kind d r)
    {invert : Bool} (hcode : encodeDecimal d invert = .ok code) (s : List UInt8) :
    ∃ d', decodeDecimal invert (code ++ s) = .ok (s, d') := by
  by_cases hr : r ≠ 2 ∧ r ≠ 4
  · obtain ⟨code', hcode', hreads⟩ := h.reads_special hr invert
    obtain rfl := Except.ok.inj (hcode.symm.trans hcode')
    exact ⟨_, hreads s⟩
  · obtain ⟨hform, hcoeff⟩ := h.number hr
    obtain ⟨n, -, -, -, hnumber⟩ := exists_normalized hform hcoeff
    obtain rfl := Except.ok.inj (hcode.symm.trans (hnumber invert))
    obtain ⟨e, -, hdecode⟩ := decodeDecimal_numberCode (d.negative != invert) invert n s
    obtain ⟨d', hmake⟩ := exists_makeDecimalFromMandE ((d.negative != invert) != invert) e n
    rw [hdecode, hmake]
    exact ⟨d', rfl⟩

/-- A direction in which decimals are written with or without inversion. -/
theorem codeOf_encodeDecimal {v : Decimal} (hv : v.form ≠ .nanSignaling) {invert : Bool}
    (hencode : encode dir (.decimal v) = (encodeDecimal v invert).mapError .encoding)
    (hdecode : decode dir .decimal = orNull (readAs .decimal (decodeDecimal invert))) :
    ∃ code, encode dir (.decimal v) = .ok code ∧ CodeOf dir .decimal (.decimal v) code := by
  obtain ⟨r, hkind⟩ := exists_kind hv
  obtain ⟨c, rest, hcode, hlow, hhigh, hmeasures⟩ := peekLengthAt_decimal hkind invert
  refine ⟨c :: rest, ?_, codeOf_scalar hdecode ⟨c, rest, rfl, by omega, by omega⟩ hmeasures
    (fun _ => ⟨rfl, rfl⟩) (exists_decodeDecimal hkind hcode)⟩
  rw [hencode, hcode]
  rfl

theorem codeOf_decimal {v : Decimal} (hv : v.form ≠ .nanSignaling) :
    ∃ code, encode dir (.decimal v) = .ok code ∧ CodeOf dir .decimal (.decimal v) code := by
  cases dir with
  | ascending | descending => exact codeOf_encodeDecimal hv rfl rfl

/-! ### Arrays -/

section

variable (h : ElemCode dir t e code)
include h

theorem ElemCode.head : ∃ c rest, code = c :: rest ∧ c ≠ keyTerminator dir := by
  cases h with
  | null => exact ⟨_, _, rfl, by cases dir <;> decide⟩
  | code h _ =>
    obtain ⟨c, rest, heq, hlow, hhigh⟩ := h.head
    refine ⟨c, rest, heq, ?_⟩
    rintro rfl
    cases dir with
    | ascending => exact absurd hlow (by decide)
    | descending => exact absurd hhigh (by decide)

theorem ElemCode.measures {depth : Nat} (hdepth : code.length ≤ depth) :
    Measures (peekLengthAt depth) code := by
  cases h with
  | null =>
    rw [length_singleton] at hdepth
    obtain ⟨depth, rfl⟩ : ∃ k, depth = k + 1 := ⟨depth - 1, by omega⟩
    exact peekLengthAt_tagOnly (by cases dir <;> decide)
  | code h _ => exact h.measures depth hdepth

/-- How an element is read in the loop of `decodeArrayKey`. -/
theorem ElemCode.reads (s : List UInt8) :
    ∃ c buf e', code ++ s = c :: buf ∧ c ≠ keyTerminator dir ∧ e.SameShape e' ∧
      (if c = nullWithinArrayKey dir then .ok (buf, .null) else decode dir t (c :: buf)) =
        (.ok (s, e') : Except Failure (List UInt8 × Datum)) := by
  obtain ⟨c, rest, rfl, hstop⟩ := h.head
  cases h with
  | null => exact ⟨_, _, .null, rfl, hstop, .refl _, if_pos rfl⟩
  | code h _ =>
    obtain ⟨e', hshape, hread⟩ := h.reads s
    obtain ⟨c', rest', heq, hlow, hhigh⟩ := h.head
    obtain ⟨rfl, rfl⟩ := cons.inj heq
    have hnull : c ≠ nullWithinArrayKey dir := by
      rintro rfl
      cases dir with
      | ascending => exact absurd hlow (by decide)
      | descending => exact absurd hhigh (by decide)
    exact ⟨c, rest ++ s, e', rfl, hstop, hshape, (if_neg hnull).trans hread⟩

end

theorem exists_elemCode {codes : List (List UInt8)}
    (h : Forall₂ (ElemCode dir t) elems codes) (hcode : code ∈ codes) :
    ∃ e, ElemCode dir t e code := by
  induction h with
  | nil => exact nomatch hcode
  | cons he _ ih =>
    rcases mem_cons.mp hcode with rfl | hmem
    · exact ⟨_, he⟩
    · exact ih hmem

theorem encodeElems_codes (h : ∀ e ∈ elems, e.resolvedType ≠ none →
      ∃ code, encode dir e = .ok code ∧ CodeOf dir t e code) :
    ∃ codes, encodeElems dir elems = .ok codes.flatten ∧
      Forall₂ (ElemCode dir t) elems codes := by
  induction elems with
  | nil => exact ⟨[], rfl, .nil⟩
  | cons e elems ih =>
    obtain ⟨codes, hcodes, helems⟩ := ih fun d hd => h d (mem_cons_of_mem _ hd)
    by_cases he : e.resolvedType = none
    · obtain rfl : e = .null := by
        cases e <;> first | rfl | exact nomatch he
      refine ⟨[nullWithinArrayKey dir] :: codes, ?_, .cons .null helems⟩
      simp only [encodeElems, if_pos he, hcodes]
      rfl
    · obtain ⟨code, hcode, hof⟩ := h e mem_cons_self he
      refine ⟨code :: codes, ?_, .cons (.code hof he) helems⟩
      simp only [encodeElems, if_neg he, hcode, hcodes]
      rfl

/-- The loop of `decodeArrayKey` reads the elements one after another and appends them. -/
theorem decodeElems_codes {elems arr arr' result : List Datum} {codes : List (List UInt8)}
    (hcodes : Forall₂ (ElemCode dir t) elems codes)
    (harr : Forall₂ Datum.SameShape arr arr')
    (happend : elems.foldlM (append t) arr = .ok result) {fuel : Nat}
    (hfuel : codes.flatten.length < fuel) (s : List UInt8) :
    ∃ elems', Forall₂ Datum.SameShape elems elems' ∧
      decodeElems dir t (decode dir t) fuel arr' (codes.flatten ++ keyTerminator dir :: s) =
        .ok (s, .array t (arr' ++ elems')) := by
  induction hcodes generalizing arr arr' fuel with
  | nil =>
    obtain ⟨fuel, rfl⟩ : ∃ k, fuel = k + 1 := ⟨fuel - 1, by omega⟩
    refine ⟨[], .nil, ?_⟩
    rw [flatten_nil, nil_append, append_nil]
    simp only [decodeElems, if_true]
  | @cons e code elems codes he _ ih =>
    obtain ⟨fuel, rfl⟩ : ∃ k, fuel = k + 1 := ⟨fuel - 1, by omega⟩
    obtain ⟨hfirst, hrest⟩ := foldlM_append_cons happend
    obtain ⟨c, buf, e', hsplit, hstop, hshape, hread⟩ :=
      he.reads (codes.flatten ++ keyTerminator dir :: s)
    have hlen : 0 < code.length := by
      obtain ⟨x, rest, rfl, -⟩ := he.head
      exact Nat.succ_pos _
    rw [flatten_cons, length_append] at hfuel
    have hpush := append_congr harr hshape hfirst
    obtain ⟨elems', hshapes, hloop⟩ :=
      ih (rel_append harr (.cons hshape .nil)) hrest (show _ < fuel by omega)
    refine ⟨e' :: elems', .cons hshape hshapes, ?_⟩
    rw [flatten_cons, append_assoc, hsplit]
    simp only [decodeElems, if_neg hstop, hread, bind, Except.bind, hpush, hloop]
    rw [append_assoc, singleton_append]

theorem codeOf_array (happend : elems.foldlM (append t) [] = .ok elems)
    (h : ∀ e ∈ elems, e.resolvedType ≠ none →
      ∃ code, encode dir e = .ok code ∧ CodeOf dir t e code) :
    ∃ code, encode dir (.array t elems) = .ok code ∧
      CodeOf dir (.array t) (.array t elems) code := by
  obtain ⟨codes, hencode, hcodes⟩ := encodeElems_codes h
  have hhead : ∃ c rest, arrayMarker dir :: (codes.flatten ++ [keyTerminator dir]) = c :: rest ∧
      2 ≤ c.toNat ∧ c.toNat ≤ 253 := ⟨_, _, rfl, by cases dir <;> decide, by cases dir <;> decide⟩
  refine ⟨arrayMarker dir :: (codes.flatten ++ [keyTerminator dir]), ?_, hhead, ?_, ?_⟩
  · simp only [encode, hencode]
    rfl
  · intro depth hdepth
    rw [length_cons, length_append] at hdepth
    obtain ⟨depth, rfl⟩ : ∃ k, depth = k + 1 := ⟨depth - 1, by omega⟩
    refine peekLengthAt_array (by cases dir <;> decide) (fun c hc => ?_) fun c hc => ?_
    · obtain ⟨e, he⟩ := exists_elemCode hcodes hc
      have hle := Sublist.length_le (sublist_flatten_of_mem hc)
      exact he.measures (by omega)
    · obtain ⟨e, he⟩ := exists_elemCode hcodes hc
      exact he.head
  · intro s
    have hfuel : codes.flatten.length < (codes.flatten ++ keyTerminator dir :: s).length + 1 := by
      rw [length_append]
      omega
    obtain ⟨elems', hshapes, hloop⟩ := decodeElems_codes hcodes .nil happend hfuel s
    refine ⟨.array t elems', ⟨rfl, hshapes.length_eq⟩, ?_⟩
    rw [decode, orNull_append s _ hhead, cons_append, append_assoc, singleton_append]
    simp only [decodeArrayKey, ne_eq, not_true_eq_false, if_false]
    rw [hloop, nil_append]

/-! ### All values -/

/-- By the cases of `OfType`: the elements of an array are of a smaller type. -/
theorem exists_codeOf (h : OfType t v) (hv : v.resolvedType ≠ none) :
    ∃ code, encode dir v = .ok code ∧ CodeOf dir t v code := by
  fun_induction OfType t v with
  | case1 => exact absurd rfl hv
  | case2 v => exact ⟨_, rfl, codeOf_int v⟩
  | case3 v => exact ⟨_, rfl, codeOf_pgLSN v⟩
  | case4 v | case5 v => exact ⟨_, rfl, codeOf_bytes v rfl fun _ => ⟨rfl, rfl⟩⟩
  | case6 v => exact codeOf_decimal h
  | case7 v => exact ⟨_, rfl, codeOf_timestamp v⟩
  | case8 v => exact ⟨_, rfl, codeOf_timeTZ v⟩
  | case9 v => exact codeOf_interval h
  | case10 v => exact ⟨_, rfl, codeOf_bitArray v⟩
  | case11 t paramTyp elems ih =>
    obtain ⟨rfl, helems, happend⟩ := h
    exact codeOf_array happend fun e he hne => ih e (helems e he) hne
  | case12 => exact h.elim

end Codes

/-! ## The result -/

/-- `PeekLength` finds the length of every value that `Encode` writes, in both directions and
whatever follows, and `Decode` for its type leaves exactly what follows. -/
theorem peekLength_encode (dir : Direction) (t : Typ) (v : Datum) (h : OfType t v) :
    ∃ code, encode dir v = .ok code ∧ ∀ s, peekLength (code ++ s) = .ok code.length ∧
      ∃ v', v.SameShape v' ∧ decode dir t (code ++ s) = .ok (s, v') := by
  by_cases hv : v.resolvedType = none
  · obtain rfl : v = .null := by
      cases v <;> first | rfl | exact nomatch hv
    refine ⟨encodeNull dir, rfl, fun s => ⟨?_, .null, .refl _, ?_⟩⟩
    · exact peekLengthAt_tagOnly (by cases dir <;> decide) s
    · cases dir <;> cases t <;> rfl
  · obtain ⟨code, hcode, hof⟩ := exists_codeOf h hv
    refine ⟨code, hcode, fun s => ⟨hof.measures _ ?_ s, hof.reads s⟩⟩
    rw [List.length_append]
    omega

def nested : Datum := .array (.array .int) [.array .int [.int 7, .null], .array .int [.null, .null]]

/-- Two arrays in an array. -/
theorem peekLength_encode_nested : OfType (.array (.array .int)) nested ∧
    ∃ code, encode .descending nested = .ok code ∧
      ∀ s, peekLength (code ++ s) = .ok code.length ∧ ∃ v', nested.SameShape v' ∧
        decode .descending (.array (.array .int)) (code ++ s) = .ok (s, v') := by
  have htype : OfType (.array (.array .int)) nested := by
    refine ⟨rfl, fun e he => ?_, rfl⟩
    simp only [List.mem_cons, List.not_mem_nil, or_false] at he
    rcases he with rfl | rfl
    · exact ⟨rfl, by simp [OfType], rfl⟩
    · exact ⟨rfl, by simp [OfType], rfl⟩
  exact ⟨htype, peekLength_encode .descending _ _ htype⟩

end Cockroach.Keyside
