import Cockroach.Storage.EngineKey

/-!
# The engine's comparer (`EngineComparer` of `pebble.go`)

On encodings of valid engine keys the hand-written routines agree with one order, that of
the prefix and then, descending, of the version without its length byte, its synthetic byte
and a zero logical time (`EngineKey.rank`). A key without a version comes first.

The separators and successors of plain byte strings are those of `pebble.DefaultComparer`,
of which only the contract is known (`DefaultComparer`). The checks of test builds are left
out.
-/

namespace Cockroach.Storage

open Lib Hlc EngineKey List Timestamp

/-! ## The routines -/

/-- `normalizeEngineSuffixForCompare`. -/
def normalizeEngineSuffixForCompare (a : List UInt8) : List UInt8 :=
  -- The length byte.
  let a := a.dropLast
  -- The synthetic byte.
  let a := if a.length = 13 then a.take 12 else a
  -- A zero logical time.
  if a.length = 12 ∧ a.drop 8 = [0, 0, 0, 0] then a.take 8 else a

/-- `EngineSuffixCompare`. -/
def engineSuffixCompare (a b : List UInt8) : Ordering :=
  if a.length = 0 ∨ b.length = 0 then cmp a.length b.length
  else cmp (normalizeEngineSuffixForCompare b) (normalizeEngineSuffixForCompare a)

/-- `EngineKeySplit`. -/
def engineKeySplit (k : List UInt8) : Nat :=
  if k.length = 0 then 0 else k.length - suffixLen k

/-- `EngineKeyCompare`. -/
def engineKeyCompare (a b : List UInt8) : Ordering :=
  if a.length = 0 ∨ b.length = 0 then cmp a.length b.length
  else
    let aSuffixLen := suffixLen a
    let aSuffixStart := a.length - aSuffixLen
    let bSuffixLen := suffixLen b
    let bSuffixStart := b.length - bSuffixLen
    let c := cmp (a.take aSuffixStart) (b.take bSuffixStart)
    if c ≠ .eq then c
    else if aSuffixLen = 0 ∨ bSuffixLen = 0 then cmp aSuffixLen bSuffixLen
    else cmp (normalizeEngineSuffixForCompare (b.drop bSuffixStart))
      (normalizeEngineSuffixForCompare (a.drop aSuffixStart))

/-- `EngineKeyEqual`. -/
def engineKeyEqual (a b : List UInt8) : Bool :=
  if a.length = 0 ∨ b.length = 0 then a.length = b.length
  else
    let aSuffixLen := suffixLen a
    let aSuffixStart := a.length - aSuffixLen
    let bSuffixLen := suffixLen b
    let bSuffixStart := b.length - bSuffixLen
    let withWall := 1 + 8
    let withLockTableLen := 1 + 17
    if (aSuffixLen ≤ withWall ∧ bSuffixLen ≤ withWall) ∨
        (aSuffixLen = withLockTableLen ∧ bSuffixLen = withLockTableLen) ∨
        aSuffixLen = 0 ∨ bSuffixLen = 0 then a = b
    else if a.take aSuffixStart ≠ b.take bSuffixStart then false
    else normalizeEngineSuffixForCompare (a.drop aSuffixStart) =
      normalizeEngineSuffixForCompare (b.drop bSuffixStart)

/-- `MVCCKey.Compare`. -/
def MVCCKey.compare (k o : MVCCKey) : Ordering :=
  let c := cmp k.key o.key
  if c ≠ .eq then c
  else if k.timestamp.isEmpty ∧ ¬ o.timestamp.isEmpty then .lt
  else if ¬ k.timestamp.isEmpty ∧ o.timestamp.isEmpty then .gt
  else (cmp k.timestamp o.timestamp).swap

/-- `pebble.DefaultComparer`, which compares bytes: what `Separator` and `Successor` append,
and what they promise of it. -/
structure DefaultComparer where
  separator : List UInt8 → List UInt8 → List UInt8
  successor : List UInt8 → List UInt8
  le_separator : ∀ a b, a < b → a ≤ separator a b
  separator_lt : ∀ a b, a < b → separator a b < b
  le_successor : ∀ a, a ≤ successor a

/-- What `EngineComparer.Separator` appends. -/
def engineSeparator (d : DefaultComparer) (a b : List UInt8) : List UInt8 :=
  match getKeyPartFromEngineKey a, getKeyPartFromEngineKey b with
  | some aKey, some bKey =>
    if aKey = bKey then a
    else
      let s := d.separator aKey bKey
      if aKey = s then a else s ++ [0]
  | _, _ => a

/-- What `EngineComparer.Successor` appends. -/
def engineSuccessor (d : DefaultComparer) (a : List UInt8) : List UInt8 :=
  match getKeyPartFromEngineKey a with
  | some aKey =>
    let s := d.successor aKey
    if aKey = s then a else s ++ [0]
  | none => a

/-! ## The order -/

/-- A version as far as it counts. -/
def EngineKey.normal (k : EngineKey) : List UInt8 := normalizeEngineSuffixForCompare k.suffix

/-- How recent a version is: none comes first, then the versions descending. -/
def EngineKey.age (k : EngineKey) : WithBot (List UInt8)ᵒᵈ :=
  if k.version = [] then ⊥ else WithBot.some (OrderDual.toDual k.normal)

/-- Where a key stands: by its prefix, then by its version. -/
def EngineKey.rank (k : EngineKey) : Lex (List UInt8 × WithBot (List UInt8)ᵒᵈ) :=
  toLex (k.key ++ [0], k.age)

section Order

variable {k l : EngineKey}

theorem compares_bytes (a b : List UInt8) : (cmp a b).Compares a b := by
  unfold cmp cmpUsing
  split_ifs with hab hba
  · exact hab
  · exact hba
  · exact le_antisymm (not_lt.mp hba) (not_lt.mp hab)

/-- A lexicographic comparison, as the routines make it. -/
theorem compares_toLex {α β : Type*} [LinearOrder α] [LinearOrder β] {a a' : α} {b b' : β}
    {o p : Ordering} (ho : o.Compares a a') (hp : o = .eq → p.Compares b b') :
    (if o ≠ .eq then o else p).Compares (toLex (a, b)) (toLex (a', b')) := by
  cases o with
  | lt | gt => exact Prod.Lex.toLex_lt_toLex.mpr (.inl ho)
  | eq =>
    obtain rfl : a = a' := ho
    have hp := hp rfl
    cases p with
    | lt | gt => exact Prod.Lex.toLex_lt_toLex.mpr (.inr ⟨rfl, hp⟩)
    | eq => exact congrArg (fun b => toLex (a, b)) hp

/-- Descending versions compare the other way around. -/
theorem compares_toDual {α : Type*} [LinearOrder α] {a b : α} {o : Ordering} (h : o.Compares b a) :
    o.Compares (WithBot.some (OrderDual.toDual a)) (WithBot.some (OrderDual.toDual b)) := by
  cases o with
  | lt | gt => exact WithBot.coe_lt_coe.mpr (OrderDual.toDual_lt_toDual.mpr h)
  | eq => exact congrArg (fun v => WithBot.some (OrderDual.toDual v)) (Eq.symm h)

theorem EngineKey.length_suffix_eq_zero : k.suffix.length = 0 ↔ k.version = [] :=
  length_eq_zero_iff.trans suffix_eq_nil

theorem EngineKey.length_suffix_pos (h : k.version ≠ []) : 0 < k.suffix.length :=
  Nat.pos_of_ne_zero fun hz => h (length_suffix_eq_zero.mp hz)

theorem EngineKey.age_of_nil (h : k.version = []) : k.age = ⊥ := if_pos h

theorem EngineKey.age_of_ne_nil (h : k.version ≠ []) :
    k.age = WithBot.some (OrderDual.toDual k.normal) := if_neg h

/-- Suffixes compare by age. -/
theorem engineSuffixCompare_compares (k l : EngineKey) :
    (engineSuffixCompare k.suffix l.suffix).Compares k.age l.age := by
  unfold engineSuffixCompare
  simp only [length_suffix_eq_zero]
  by_cases hk : k.version = []
  · rw [if_pos (.inl hk), age_of_nil hk, length_suffix_eq_zero.mpr hk]
    by_cases hl : l.version = []
    · rw [age_of_nil hl, length_suffix_eq_zero.mpr hl, cmp_self_eq_eq]
      exact rfl
    · rw [age_of_ne_nil hl, (cmp_eq_lt_iff _ _).mpr (length_suffix_pos hl)]
      exact WithBot.bot_lt_coe _
  · by_cases hl : l.version = []
    · rw [if_pos (.inr hl), age_of_nil hl, age_of_ne_nil hk, length_suffix_eq_zero.mpr hl,
        (cmp_eq_gt_iff _ _).mpr (length_suffix_pos hk)]
      exact WithBot.bot_lt_coe _
    · rw [if_neg (not_or.mpr ⟨hk, hl⟩), age_of_ne_nil hk, age_of_ne_nil hl]
      exact compares_toDual (compares_bytes l.normal k.normal)

theorem EngineKey.length_encode_ne_zero (k : EngineKey) : k.encode.length ≠ 0 :=
  fun h => k.encode_ne_nil (length_eq_zero_iff.mp h)

theorem EngineKey.engineKeySplit_encode (k : EngineKey) :
    engineKeySplit k.encode = k.encode.length - suffixLen k.encode :=
  if_neg k.length_encode_ne_zero

theorem EngineKey.Valid.length_lt (h : k.Valid) : k.version.length < 255 := by
  have := h.length_le
  omega

theorem EngineKey.Valid.take_split (h : k.Valid) :
    k.encode.take (engineKeySplit k.encode) = k.key ++ [0] := by
  rw [engineKeySplit_encode, take_encode h.length_lt]

theorem EngineKey.Valid.drop_split (h : k.Valid) :
    k.encode.drop (engineKeySplit k.encode) = k.suffix := by
  rw [engineKeySplit_encode, drop_encode h.length_lt]

/-- A comparison of keys is one of the prefixes and then one of the suffixes. -/
theorem engineKeyCompare_encode (hk : k.Valid) (hl : l.Valid) :
    engineKeyCompare k.encode l.encode =
      let c := cmp (k.key ++ [0]) (l.key ++ [0])
      if c ≠ .eq then c else engineSuffixCompare k.suffix l.suffix := by
  unfold engineKeyCompare engineSuffixCompare
  rw [if_neg (not_or.mpr ⟨k.length_encode_ne_zero, l.length_encode_ne_zero⟩)]
  dsimp only
  rw [take_encode hk.length_lt, take_encode hl.length_lt,
    drop_encode hk.length_lt, drop_encode hl.length_lt,
    suffixLen_encode hk.length_lt, suffixLen_encode hl.length_lt]

/-- Keys compare by rank. -/
theorem engineKeyCompare_compares (hk : k.Valid) (hl : l.Valid) :
    (engineKeyCompare k.encode l.encode).Compares k.rank l.rank := by
  rw [engineKeyCompare_encode hk hl]
  exact compares_toLex (compares_bytes _ _) fun _ => engineSuffixCompare_compares k l

theorem engineKeyCompare_eq_iff (hk : k.Valid) (hl : l.Valid) :
    engineKeyCompare k.encode l.encode = .eq ↔ k.key = l.key ∧ k.age = l.age := by
  rw [(engineKeyCompare_compares hk hl).eq_eq]
  unfold EngineKey.rank
  rw [toLex_inj, Prod.mk.injEq, append_cancel_right_eq]

end Order

/-! ## MVCC keys -/

section Mvcc

variable {k l : MVCCKey}

theorem MVCCKey.compare_compares (k l : MVCCKey) : (k.compare l).Compares k l := by
  have hrank : (k.compare l).Compares k.rank l.rank := by
    unfold MVCCKey.compare
    refine compares_toLex (compares_bytes _ _) fun _ => ?_
    unfold place
    by_cases hk : k.timestamp = {}
    · by_cases hl : l.timestamp = {} <;>
        simp [hk, hl, Timestamp.isEmpty, Ordering.Compares]
    · by_cases hl : l.timestamp = {}
      · simp [hk, hl, Timestamp.isEmpty, Ordering.Compares]
      · rw [if_neg (by simp [hk]), if_neg (by simp [hl]), if_neg hk, if_neg hl]
        exact compares_toDual (cmp_compares k.timestamp l.timestamp).swap
  revert hrank
  cases k.compare l with
  | lt => exact fun h => h
  | eq => exact fun h => rank_injective h
  | gt => exact fun h => h

/-- The bytes of timestamps are ordered as the timestamps. -/
theorem encodeMVCCTimestamp_lt {t s : Timestamp} (ht : t.wallTime < 2 ^ 63)
    (hs : s.wallTime < 2 ^ 63) (hl : s.logical < 2 ^ 31) (h : t < s) :
    encodeMVCCTimestamp t < encodeMVCCTimestamp s := by
  unfold encodeMVCCTimestamp
  rw [bigEndian_append_lt_iff (by omega) (by omega)]
  rcases lt_def.mp h with h | ⟨hw, hlog⟩
  · exact .inl h
  · refine .inr ⟨hw, ?_⟩
    have hs0 : s.logical ≠ 0 := by omega
    rw [if_pos hs0]
    by_cases h0 : t.logical = 0
    · rw [if_neg (not_not.mpr h0)]
      exact nil_lt_cons _ _
    · rw [if_pos h0, ← append_nil (bigEndian 4 t.logical),
        ← append_nil (bigEndian 4 s.logical), bigEndian_append_lt_iff (by omega) (by omega)]
      exact .inl hlog

theorem EngineKey.normal_eq {e : EngineKey} (hv : e.version ≠ []) : e.normal =
      let a := if e.version.length = 13 then e.version.take 12 else e.version
      if a.length = 12 ∧ a.drop 8 = [0, 0, 0, 0] then a.take 8 else a := by
  unfold normal normalizeEngineSuffixForCompare
  rw [suffix_dropLast hv]

/-- Nothing of a written timestamp is ignored. -/
theorem MVCCKey.NonNegative.normal_toEngineKey (h : k.NonNegative)
    (hts : k.timestamp.isEmpty ≠ true) :
    k.toEngineKey.normal = encodeMVCCTimestamp k.timestamp := by
  have hv : k.toEngineKey.version = encodeMVCCTimestamp k.timestamp := if_neg hts
  have hlen := length_encodeMVCCTimestamp k.timestamp
  rw [normal_eq (by rw [hv]; exact encodeMVCCTimestamp_ne_nil _), hv]
  have h13 : (encodeMVCCTimestamp k.timestamp).length ≠ 13 := by
    rw [hlen]
    split_ifs <;> omega
  dsimp only
  rw [if_neg h13]
  refine if_neg ?_
  rintro ⟨h12, hzero⟩
  by_cases h0 : k.timestamp.logical = 0
  · rw [hlen, if_neg (not_not.mpr h0)] at h12
    omega
  · unfold encodeMVCCTimestamp at hzero
    rw [drop_left' (length_bigEndian 8 _), if_pos h0] at hzero
    have h31 := h.2
    exact h0 (bigEndian_injective (by omega) (by omega) (hzero.trans rfl))

/-- The order of MVCC keys is kept. -/
theorem MVCCKey.NonNegative.rank_lt (hk : k.NonNegative) (hl : l.NonNegative) (h : k < l) :
    k.toEngineKey.rank < l.toEngineKey.rank := by
  unfold EngineKey.rank
  rw [Prod.Lex.toLex_lt_toLex]
  rcases lt_iff_rank.mp h with hkey | ⟨hkey, hplace⟩
  · exact .inl (append_zero_lt_iff.mpr hkey)
  · refine .inr ⟨congrArg (· ++ [0]) hkey, ?_⟩
    have hlts : l.timestamp ≠ {} := by
      intro hl
      unfold place at hplace
      rw [if_pos hl] at hplace
      exact not_lt_bot hplace
    have hl' : l.timestamp.isEmpty ≠ true := fun h => hlts (isEmpty_iff.mp h)
    have hlv : l.toEngineKey.version = encodeMVCCTimestamp l.timestamp := if_neg hl'
    have hlage := age_of_ne_nil (hlv ▸ encodeMVCCTimestamp_ne_nil l.timestamp)
    show k.toEngineKey.age < l.toEngineKey.age
    rw [hlage, hl.normal_toEngineKey hl']
    by_cases hk' : k.timestamp.isEmpty = true
    · rw [age_of_nil (if_pos hk')]
      exact WithBot.bot_lt_coe _
    · have hkv : k.toEngineKey.version = encodeMVCCTimestamp k.timestamp := if_neg hk'
      rw [age_of_ne_nil (hkv ▸ encodeMVCCTimestamp_ne_nil k.timestamp), hk.normal_toEngineKey hk']
      unfold place at hplace
      rw [if_neg fun h => hk' (isEmpty_iff.mpr h), if_neg hlts] at hplace
      refine WithBot.coe_lt_coe.mpr (OrderDual.toDual_lt_toDual.mpr ?_)
      exact encodeMVCCTimestamp_lt hl.1 hk.1 hk.2
        (OrderDual.toDual_lt_toDual.mp (WithBot.coe_lt_coe.mp hplace))

/-- On MVCC keys the comparison of encodings is that of keys. -/
theorem engineKeyCompare_encodeMVCCKey (hk : k.NonNegative) (hl : l.NonNegative) :
    engineKeyCompare (encodeMVCCKey k) (encodeMVCCKey l) = k.compare l := by
  rw [← k.encode_toEngineKey, ← l.encode_toEngineKey]
  refine (engineKeyCompare_compares k.toEngineKey_valid l.toEngineKey_valid).inj ?_
  have h := k.compare_compares l
  revert h
  cases k.compare l with
  | lt => exact fun h => hk.rank_lt hl h
  | eq => exact fun h => congrArg (fun k => EngineKey.rank (MVCCKey.toEngineKey k)) h
  | gt => exact fun h => hl.rank_lt hk h

end Mvcc

/-! ## Equality -/

section Equal

variable {k l : EngineKey}

theorem EngineKey.encode_inj (hk : k.Valid) (hl : l.Valid) : k.encode = l.encode ↔ k = l := by
  refine ⟨fun h => ?_, congrArg encode⟩
  have hdec := decodeEngineKey_encode hk.length_lt
  rw [h, decodeEngineKey_encode hl.length_lt] at hdec
  exact (Option.some.inj hdec).symm

theorem EngineKey.length_suffix (hv : k.version ≠ []) : k.suffix.length = k.version.length + 1 := by
  unfold suffix
  rw [if_neg hv, length_append]
  rfl

/-- Wall times and locks count in full. -/
theorem EngineKey.normal_eq_version (hv : k.version ≠ [])
    (h : k.version.length ≤ 8 ∨ k.version.length = 17) : k.normal = k.version := by
  rw [normal_eq hv]
  have h13 : k.version.length ≠ 13 := by omega
  have h12 : ¬ (k.version.length = 12 ∧ k.version.drop 8 = [0, 0, 0, 0]) := by
    rintro ⟨h12, -⟩
    omega
  dsimp only
  rw [if_neg h13, if_neg h12]

theorem EngineKey.age_eq_iff (hk : k.version ≠ []) (hl : l.version ≠ []) :
    k.age = l.age ↔ k.normal = l.normal := by
  rw [age_of_ne_nil hk, age_of_ne_nil hl]
  exact WithBot.coe_inj.trans OrderDual.toDual_inj

theorem EngineKey.age_eq_bot : k.age = ⊥ ↔ k.version = [] := by
  refine ⟨fun h => ?_, age_of_nil⟩
  by_contra hv
  rw [age_of_ne_nil hv] at h
  exact WithBot.coe_ne_bot h

/-- Where the fast path of `EngineKeyEqual` is taken, keys of one age have one version. -/
theorem EngineKey.version_eq_of_age (hfast : (k.suffix.length ≤ 9 ∧ l.suffix.length ≤ 9) ∨
      (k.suffix.length = 18 ∧ l.suffix.length = 18) ∨ k.suffix.length = 0 ∨ l.suffix.length = 0)
    (h : k.age = l.age) : k.version = l.version := by
  by_cases hk : k.version = []
  · rw [age_of_nil hk] at h
    rw [hk, age_eq_bot.mp h.symm]
  · have hl : l.version ≠ [] := by
      intro hl
      rw [age_of_nil hl] at h
      exact hk (age_eq_bot.mp h)
    have hn := (age_eq_iff hk hl).mp h
    have hkl := length_suffix hk
    have hll := length_suffix hl
    rw [normal_eq_version hk (by omega), normal_eq_version hl (by omega)] at hn
    exact hn

/-- `EngineKeyEqual` holds of what `EngineKeyCompare` finds equal. -/
theorem engineKeyEqual_iff (hk : k.Valid) (hl : l.Valid) :
    engineKeyEqual k.encode l.encode = true ↔ engineKeyCompare k.encode l.encode = .eq := by
  rw [engineKeyCompare_eq_iff hk hl]
  unfold engineKeyEqual
  rw [if_neg (not_or.mpr ⟨k.length_encode_ne_zero, l.length_encode_ne_zero⟩)]
  dsimp only
  rw [take_encode hk.length_lt, take_encode hl.length_lt,
    drop_encode hk.length_lt, drop_encode hl.length_lt,
    suffixLen_encode hk.length_lt, suffixLen_encode hl.length_lt]
  split_ifs with hfast hkey
  · rw [decide_eq_true_iff, encode_inj hk hl]
    constructor
    · rintro rfl
      exact ⟨rfl, rfl⟩
    · rintro ⟨hkey, hage⟩
      exact EngineKey.ext hkey (version_eq_of_age hfast hage)
  · have hne : k.key ≠ l.key := fun h => hkey (congrArg (· ++ [0]) h)
    simp [hne]
  · rw [not_not, append_cancel_right_eq] at hkey
    have hkv : k.version ≠ [] := fun h =>
      hfast (.inr (.inr (.inl (length_suffix_eq_zero.mpr h))))
    have hlv : l.version ≠ [] := fun h =>
      hfast (.inr (.inr (.inr (length_suffix_eq_zero.mpr h))))
    rw [decide_eq_true_iff, age_eq_iff hkv hlv, and_iff_right hkey]
    rfl

end Equal

/-! ## Separators and successors -/

section Separator

variable {k l : EngineKey} (d : DefaultComparer)

/-- A bare key is an engine key without a version. -/
theorem encode_bare (s : List UInt8) : (EngineKey.mk s []).encode = s ++ [0] := by
  unfold EngineKey.encode EngineKey.suffix
  rw [if_pos rfl, append_nil]

theorem bare_valid (s : List UInt8) : (EngineKey.mk s []).Valid := mem_cons_self

variable (hk : k.Valid)
include hk

/-- Where the keys differ they decide. -/
theorem engineKeyCompare_lt_of_key (hl : l.Valid) (h : k.key < l.key) :
    engineKeyCompare k.encode l.encode = .lt :=
  (engineKeyCompare_compares hk hl).eq_lt.mpr
    (Prod.Lex.toLex_lt_toLex.mpr (.inl (append_zero_lt_iff.mpr h)))

theorem key_le_of_engineKeyCompare_lt (hl : l.Valid)
    (h : engineKeyCompare k.encode l.encode = .lt) : k.key ≤ l.key := by
  rcases Prod.Lex.toLex_lt_toLex.mp ((engineKeyCompare_compares hk hl).eq_lt.mp h) with h | h
  · exact (append_zero_lt_iff.mp h).le
  · exact (append_cancel_right h.1).le

theorem engineKeyCompare_self : engineKeyCompare k.encode k.encode = .eq :=
  (engineKeyCompare_compares hk hk).eq_eq.mpr rfl

/-- A separator lies between. -/
theorem engineSeparator_between (hl : l.Valid)
    (h : engineKeyCompare k.encode l.encode = .lt) :
    engineKeyCompare k.encode (engineSeparator d k.encode l.encode) ≠ .gt ∧
      engineKeyCompare (engineSeparator d k.encode l.encode) l.encode = .lt := by
  have hself : engineKeyCompare k.encode k.encode ≠ .gt := by
    rw [engineKeyCompare_self hk]
    simp
  unfold engineSeparator
  rw [getKeyPartFromEngineKey_encode hk.length_lt, getKeyPartFromEngineKey_encode hl.length_lt]
  dsimp only
  split_ifs with hkey hs
  · exact ⟨hself, h⟩
  · exact ⟨hself, h⟩
  · have hlt : k.key < l.key := lt_of_le_of_ne (key_le_of_engineKeyCompare_lt hk hl h) hkey
    have hks : k.key < d.separator k.key l.key := lt_of_le_of_ne (d.le_separator _ _ hlt) hs
    rw [← encode_bare]
    refine ⟨?_, engineKeyCompare_lt_of_key (bare_valid _) hl (d.separator_lt _ _ hlt)⟩
    rw [engineKeyCompare_lt_of_key hk (bare_valid _) hks]
    simp

/-- A successor does not lie before. -/
theorem le_engineSuccessor :
    engineKeyCompare k.encode (engineSuccessor d k.encode) ≠ .gt := by
  unfold engineSuccessor
  rw [getKeyPartFromEngineKey_encode hk.length_lt]
  dsimp only
  split_ifs with hs
  · rw [engineKeyCompare_self hk]
    simp
  · rw [← encode_bare,
      engineKeyCompare_lt_of_key hk (bare_valid _) (lt_of_le_of_ne (d.le_successor _) hs)]
    simp

end Separator

/-! ## The comparer as a whole -/

/-- `EngineKeyCompare` is a total preorder of the encodings of engine keys, and agrees with
`MVCCKey.Compare`, with `EngineKeyEqual` and with the comparison of prefixes and suffixes;
the decoders invert the encoders; separators and successors stand where they must. -/
theorem engineComparer_correct (d : DefaultComparer) :
    (∀ k : EngineKey, k.Valid → engineKeyCompare k.encode k.encode = .eq) ∧
    (∀ k l : EngineKey, k.Valid → l.Valid →
      engineKeyCompare l.encode k.encode = (engineKeyCompare k.encode l.encode).swap) ∧
    (∀ k l m : EngineKey, k.Valid → l.Valid → m.Valid →
      engineKeyCompare k.encode l.encode ≠ .gt → engineKeyCompare l.encode m.encode ≠ .gt →
      engineKeyCompare k.encode m.encode ≠ .gt) ∧
    (∀ k l : MVCCKey, k.NonNegative → l.NonNegative →
      engineKeyCompare (encodeMVCCKey k) (encodeMVCCKey l) = k.compare l) ∧
    (∀ k l : EngineKey, k.Valid → l.Valid →
      (engineKeyEqual k.encode l.encode = true ↔
        engineKeyCompare k.encode l.encode = .eq)) ∧
    (∀ k l : EngineKey, k.Valid → l.Valid →
      let a := k.encode
      let b := l.encode
      let c := cmp (a.take (engineKeySplit a)) (b.take (engineKeySplit b))
      engineKeyCompare a b = if c ≠ .eq then c
        else engineSuffixCompare (a.drop (engineKeySplit a)) (b.drop (engineKeySplit b))) ∧
    (∀ k : MVCCKey, k.NonNegative → decodeMVCCKey (encodeMVCCKey k) = .ok k ∧
      ∃ e, decodeEngineKey (encodeMVCCKey k) = some e ∧ e.toMVCCKey = .ok k) ∧
    (∀ k l : EngineKey, k.Valid → l.Valid → engineKeyCompare k.encode l.encode = .lt →
      engineKeyCompare k.encode (engineSeparator d k.encode l.encode) ≠ .gt ∧
      engineKeyCompare (engineSeparator d k.encode l.encode) l.encode = .lt) ∧
    (∀ k : EngineKey, k.Valid →
      engineKeyCompare k.encode (engineSuccessor d k.encode) ≠ .gt) := by
  refine ⟨fun k hk => engineKeyCompare_self hk, ?swap, ?trans, ?mvcc, ?equal, ?split, ?decode,
    fun k l hk hl h => engineSeparator_between d hk hl h, fun k hk => le_engineSuccessor d hk⟩
  case swap =>
    intro k l hk hl
    exact (engineKeyCompare_compares hl hk).inj (engineKeyCompare_compares hk hl).swap
  case trans =>
    intro k l m hk hl hm h h'
    rw [(engineKeyCompare_compares hk hl).ne_gt] at h
    rw [(engineKeyCompare_compares hl hm).ne_gt] at h'
    exact (engineKeyCompare_compares hk hm).ne_gt.mpr (h.trans h')
  case mvcc =>
    intro k l hk hl
    exact engineKeyCompare_encodeMVCCKey hk hl
  case equal =>
    intro k l hk hl
    exact engineKeyEqual_iff hk hl
  case split =>
    intro k l hk hl
    dsimp only
    rw [hk.take_split, hl.take_split, hk.drop_split, hl.drop_split]
    exact engineKeyCompare_encode hk hl
  case decode =>
    intro k hk
    refine ⟨hk.decodeMVCCKey_encode, k.toEngineKey, ?_, hk.toMVCCKey_toEngineKey⟩
    rw [← k.encode_toEngineKey]
    exact decodeEngineKey_encode k.toEngineKey_valid.length_lt

/-- The first byte that can go up goes up, and ends the string. -/
def shortSuccessor : List UInt8 → List UInt8
  | [] => []
  | x :: a => if x = 255 then x :: shortSuccessor a else [x + 1]

/-- The first byte that differs goes up, and ends the string, if that stays below `b`; otherwise
a byte after it does. -/
def shortSeparator : List UInt8 → List UInt8 → List UInt8
  | x :: a, y :: b =>
    if x = y then x :: shortSeparator a b
    else if y ≤ x then x :: a
    else if b ≠ [] ∨ x + 1 < y then [x + 1]
    else x :: shortSuccessor a
  | a, _ => a

theorem lt_add_one_of_ne {x : UInt8} (h : x ≠ 255) : x < x + 1 := by
  have hx : x.toNat ≠ 255 := fun h' => h (UInt8.toNat_inj.mp h')
  have := x.toNat_lt
  simp only [UInt8.lt_iff_toNat_lt, UInt8.toNat_add, UInt8.toNat_one]
  omega

theorem add_one_le_of_lt {x y : UInt8} (h : x < y) : x < x + 1 ∧ x + 1 ≤ y := by
  have := y.toNat_lt
  simp only [UInt8.lt_iff_toNat_lt, UInt8.le_iff_toNat_le, UInt8.toNat_add, UInt8.toNat_one] at *
  omega

theorem le_shortSuccessor : ∀ a, a ≤ shortSuccessor a
  | [] => le_rfl
  | x :: a => by
    unfold shortSuccessor
    split_ifs with h
    · exact List.cons_le_cons x (le_shortSuccessor a)
    · exact (List.cons_lt_cons_iff.mpr (.inl (lt_add_one_of_ne h))).le

theorem shortSeparator_between : ∀ a b : List UInt8, a < b →
    a ≤ shortSeparator a b ∧ shortSeparator a b < b
  | [], b, h => ⟨le_rfl, h⟩
  | x :: a, [], h => absurd h (List.not_lt_nil _)
  | x :: a, y :: b, h => by
    unfold shortSeparator
    rcases List.cons_lt_cons_iff.mp h with hlt | ⟨rfl, hlt⟩
    · obtain ⟨hx, hy⟩ := add_one_le_of_lt hlt
      rw [if_neg hlt.ne, if_neg (not_le.mpr hlt)]
      split_ifs with hshort
      · refine ⟨(List.cons_lt_cons_iff.mpr (.inl hx)).le, List.cons_lt_cons_iff.mpr ?_⟩
        rcases hy.lt_or_eq with hy | hy
        · exact .inl hy
        · obtain ⟨z, b, rfl⟩ := List.exists_cons_of_ne_nil (hshort.resolve_right fun h => h.ne hy)
          exact .inr ⟨hy, List.nil_lt_cons z b⟩
      · exact ⟨List.cons_le_cons x (le_shortSuccessor a), List.cons_lt_cons_iff.mpr (.inl hlt)⟩
    · rw [if_pos rfl]
      obtain ⟨hle, hlt⟩ := shortSeparator_between a b hlt
      exact ⟨List.cons_le_cons x hle, List.cons_lt_cons_iff.mpr (.inr ⟨rfl, hlt⟩)⟩

/-- A comparer that shortens keys. -/
def DefaultComparer.short : DefaultComparer where
  separator := shortSeparator
  successor := shortSuccessor
  le_separator a b h := (shortSeparator_between a b h).1
  separator_lt a b h := (shortSeparator_between a b h).2
  le_successor := le_shortSuccessor

/-- Of two versions of a key the newer one comes first, also as bytes. And a key without a
version separates them from a later key. -/
theorem engineComparer_correct_twoVersions :
    let a := encodeMVCCKey ⟨[97, 98], ⟨5, 0⟩⟩
    let b := encodeMVCCKey ⟨[99], ⟨2, 0⟩⟩
    engineKeyCompare a (encodeMVCCKey ⟨[97, 98], ⟨3, 1⟩⟩) = .lt ∧
      engineSeparator .short a b = [98, 0] ∧ engineKeyCompare a [98, 0] ≠ .gt ∧
      engineKeyCompare [98, 0] b = .lt ∧ engineSuccessor .short a = [98, 0] := by
  intro a b
  obtain ⟨-, -, -, hmvcc, -, -, -, hsep, -⟩ := engineComparer_correct .short
  have hsep' : engineSeparator .short a b = [98, 0] := by decide
  obtain ⟨hle, hlt⟩ := hsep (MVCCKey.toEngineKey ⟨[97, 98], ⟨5, 0⟩⟩)
    (MVCCKey.toEngineKey ⟨[99], ⟨2, 0⟩⟩) (MVCCKey.toEngineKey_valid _)
    (MVCCKey.toEngineKey_valid _) (by decide)
  rw [MVCCKey.encode_toEngineKey, MVCCKey.encode_toEngineKey] at hle hlt
  exact ⟨(hmvcc ⟨[97, 98], ⟨5, 0⟩⟩ ⟨[97, 98], ⟨3, 1⟩⟩ ⟨by decide, by decide⟩
    ⟨by decide, by decide⟩).trans (by decide), hsep', hsep' ▸ hle, hsep' ▸ hlt, by decide⟩

end Cockroach.Storage
