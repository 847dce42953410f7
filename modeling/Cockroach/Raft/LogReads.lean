import Cockroach.Raft.LogSlices

/-!
# Reading the raft log (`log.go`: `slice` and `scan`)

`raftLog` reads entries through two methods of the `Storage` interface, `FirstIndex` and
`Entries`, and from its unstable suffix. `EntryReader` is that view of a storage, and
`EntryReader.Presents` its contract: `Entries` returns `limitSize` of the entries of one
slice, of which the unstable log holds the rest.

Under the contract the fast paths of `slice` all give `limitSize` of the whole range
(`slice_eq_limitSize`), and `scan` hands the range out page by page, stopping early only if
its callback asks for it (`scan_of_paged`).
-/

namespace Cockroach.Raft

open Lib List LogSlice

section Sizes

variable [Codec] {maxSize size : Nat} {xs ys : List Entry}

theorem limitLoop_append : ∀ {xs : List Entry} {size : Nat}, limitLoop maxSize size (xs ++ ys) =
      if (limitLoop maxSize size xs).length < xs.length then limitLoop maxSize size xs
      else xs ++ limitLoop maxSize (size + entsSize xs) ys
  | [], size => by simp [limitLoop, entsSize]
  | x :: xs, size => by
    have ih := @limitLoop_append xs (size + Codec.entrySize x)
    by_cases h : size + Codec.entrySize x > maxSize
    · simp [limitLoop, h]
    · simp only [cons_append, limitLoop, h, if_false, ih, length_cons, Nat.add_lt_add_iff_right]
      rw [apply_ite (cons x)]
      simp [entsSize, Nat.add_assoc]

/-- Either the first entries reach the limit by themselves, or the loop goes on with the
rest. -/
theorem limitSize_append (hne : xs ≠ []) : limitSize maxSize (xs ++ ys) =
    if (limitSize maxSize xs).length < xs.length then limitSize maxSize xs
    else xs ++ limitLoop maxSize (entsSize xs) ys := by
  obtain ⟨x, xs, rfl⟩ := exists_cons_of_ne_nil hne
  simp only [cons_append, limitSize, limitLoop_append, length_cons, Nat.add_lt_add_iff_right]
  rw [apply_ite (cons x)]
  simp [entsSize]

/-- Where no entry fits the loop stops. -/
theorem limitLoop_eq_nil (h : ∀ e : Entry, maxSize < size + Codec.entrySize e) :
    limitLoop maxSize size ys = [] := by
  cases ys with
  | nil => rfl
  | cons y ys => simp [limitLoop, h y]

/-- Part of the size may be taken off the limit instead. -/
theorem limitLoop_sub (h : size ≤ maxSize) : ∀ {ys : List Entry} {n : Nat},
    limitLoop (maxSize - size) n ys = limitLoop maxSize (size + n) ys
  | [], _ => rfl
  | y :: ys, n => by
    have hiff : n + Codec.entrySize y > maxSize - size ↔
        size + n + Codec.entrySize y > maxSize := by omega
    simp only [limitLoop, hiff, limitLoop_sub h, Nat.add_assoc]

/-- The unstable part of a read that crosses from storage, where the entries so far have
`size`: it is cut with the limit that is left, and dropped if a single entry is already too
large. -/
theorem limitLoop_eq_crossing (hsize : size < maxSize) : limitLoop maxSize size ys =
    if (limitSize (maxSize - size) ys).length = 1 ∧
        size + entsSize (limitSize (maxSize - size) ys) > maxSize then []
    else limitSize (maxSize - size) ys := by
  cases ys with
  | nil => simp [limitLoop, limitSize]
  | cons y ys =>
    have hcut : limitSize (maxSize - size) (y :: ys) =
        y :: limitLoop maxSize (size + Codec.entrySize y) ys := by
      rw [limitSize, limitLoop_sub hsize.le]
    rw [hcut]
    by_cases hy : size + Codec.entrySize y > maxSize
    · have hbig : size + entsSize [y] > maxSize := by simpa [entsSize] using hy
      rw [limitLoop_eq_nil fun _ => Nat.lt_add_right _ hy, if_pos ⟨rfl, hbig⟩, limitLoop, if_pos hy]
    · rw [limitLoop, if_neg hy, if_neg]
      rintro ⟨hone, hbig⟩
      have hnil : limitLoop maxSize (size + Codec.entrySize y) ys = [] := by
        simpa using hone
      rw [hnil] at hbig
      exact hy (by simpa [entsSize] using hbig)

theorem limitSize_ne_nil (hne : xs ≠ []) : limitSize maxSize xs ≠ [] := by
  obtain ⟨x, xs, rfl⟩ := exists_cons_of_ne_nil hne
  simp [limitSize]

theorem limitSize_append_drop (es : List Entry) :
    limitSize maxSize es ++ es.drop (limitSize maxSize es).length = es := by
  obtain ⟨n, hn, -, -⟩ := limitSize_eq_take maxSize es
  rw [hn, length_take]
  conv_rhs => rw [← take_append_drop (min n es.length) es]
  rw [take_eq_take_min]

theorem limitSize_eq_self (h : xs.length ≤ (limitSize maxSize xs).length) :
    limitSize maxSize xs = xs := by
  have hsplit := @limitSize_append_drop _ maxSize xs
  rwa [drop_eq_nil_of_le h, append_nil] at hsplit

/-- The pages of a list: each is `limitSize` of what is left. -/
inductive Paged (pageSize : Nat) : List Entry → List (List Entry) → Prop
  | nil : Paged pageSize [] []
  | cons {es : List Entry} {pages : List (List Entry)} (hne : es ≠ [])
      (hrest : Paged pageSize (es.drop (limitSize pageSize es).length) pages) :
      Paged pageSize es (limitSize pageSize es :: pages)

theorem Paged.flatten {pageSize : Nat} {es : List Entry} {pages : List (List Entry)}
    (h : Paged pageSize es pages) : pages.flatten = es := by
  induction h with
  | nil => rfl
  | cons hne hrest ih => rw [flatten_cons, ih, limitSize_append_drop]

theorem exists_paged (pageSize : Nat) (es : List Entry) : ∃ pages, Paged pageSize es pages := by
  induction hn : es.length using Nat.strong_induction_on generalizing es with
  | _ n ih =>
    by_cases hne : es = []
    · exact ⟨[], hne ▸ .nil⟩
    · have hpage := length_pos_iff.mpr (@limitSize_ne_nil _ pageSize es hne)
      have hes := length_pos_iff.mpr hne
      have hlt : (es.drop (limitSize pageSize es).length).length < n := by
        rw [length_drop]
        omega
      obtain ⟨pages, hpages⟩ := ih _ hlt _ rfl
      exact ⟨_, .cons hne hpages⟩

end Sizes

theorem LogSlice.drop_readEntries {A : LogSlice} {lo hi n : Nat} (hlo : A.prev.index < lo) :
    (A.readEntries lo hi).drop n = A.readEntries (lo + n) hi := by
  have hdrop : lo - A.prev.index - 1 + n = lo + n - A.prev.index - 1 := by omega
  rw [readEntries, readEntries, drop_take, drop_drop, hdrop, Nat.sub_sub]

/-- What reads of entries use of a `Storage`: `FirstIndex`, and `Entries` with its panics in
the outer layer and its errors in the inner one. -/
structure EntryReader where
  firstIndex : Nat
  entries : Nat → Nat → Nat → Except Panic (Except StorageErr (List Entry))

/-- Why `scan` stops early: an error of `slice`, no entries, or an error of the callback. -/
inductive ScanErr (ε : Type)
  | slice (err : StorageErr)
  | noEntries
  | callback (err : ε)

namespace EntryReader

/-- `raftLog.firstIndex`. -/
def logFirstIndex (st : EntryReader) (u : Unstable) : Nat :=
  match u.maybeFirstIndex with
  | some i => i
  | none => st.firstIndex

/-- `raftLog.mustCheckOutOfBounds`. -/
def mustCheckOutOfBounds (st : EntryReader) (u : Unstable) (lo hi : Nat) :
    Except Panic (Option StorageErr) := do
  assertTrue (lo ≤ hi) .sliceOutOfBounds
  let fi := st.logFirstIndex u
  if lo < fi then return some .compacted
  let length := u.lastIndex + 1 - fi
  assertTrue (hi ≤ fi + length) .sliceOutOfBounds
  return none

variable [Codec]

/-- `raftLog.slice`, for a log of any storage. -/
def slice (st : EntryReader) (u : Unstable) (lo hi maxSize : Nat) :
    Except Panic (Except StorageErr (List Entry)) := do
  match ← st.mustCheckOutOfBounds u lo hi with
  | some err => return .error err
  | none =>
    if lo = hi then return .ok []
    if lo > u.prev.index then
      return .ok (limitSize maxSize (← u.slice lo hi))
    let cut := min hi (u.prev.index + 1)
    match ← st.entries lo cut maxSize with
    | .error .compacted => return .error .compacted
    | .error _ => throw .entriesUnavailable
    | .ok ents =>
      if hi ≤ u.prev.index + 1 then return .ok ents
      if ents.length < cut - lo then return .ok ents
      let size := entsSize ents
      if size ≥ maxSize then return .ok ents
      let unstable := limitSize (maxSize - size) (← u.slice (u.prev.index + 1) hi)
      if unstable.length = 1 ∧ size + entsSize unstable > maxSize then return .ok ents
      return .ok (ents ++ unstable)

/-- `raftLog.scan`, with the state that the callback `v` updates. It terminates on every
log, since a page without entries ends it. -/
def scan {σ ε : Type} (st : EntryReader) (u : Unstable) (v : σ → List Entry → Except ε σ)
    (lo hi pageSize : Nat) (s : σ) : Except Panic (Except (ScanErr ε) σ) :=
  if lo < hi then
    match st.slice u lo hi pageSize with
    | .error p => .error p
    | .ok (.error err) => .ok (.error (.slice err))
    | .ok (.ok []) => .ok (.error .noEntries)
    | .ok (.ok (e :: es)) =>
      match v s (e :: es) with
      | .error err => .ok (.error (.callback err))
      | .ok s => st.scan u v (lo + (e :: es).length) hi pageSize s
  else .ok (.ok s)
termination_by hi - lo
decreasing_by
  rw [List.length_cons]
  omega

/-- The storage and the unstable log present the slice `A`: storage serves the entries up
to `unstable.prev` and the rest is unstable. -/
structure Presents (st : EntryReader) (u : Unstable) (A : LogSlice) : Prop where
  first : st.logFirstIndex u = A.prev.index + 1
  prev_ge : A.prev.index ≤ u.prev.index
  prev_le : u.prev.index ≤ A.lastIndex
  unstable : u.entries = A.entries.drop (u.prev.index - A.prev.index)
  entries : ∀ {lo hi : Nat} (maxSize : Nat), A.prev.index < lo → lo < hi →
    hi ≤ u.prev.index + 1 →
      st.entries lo hi maxSize = .ok (.ok (limitSize maxSize (A.readEntries lo hi)))

namespace Presents

variable {st : EntryReader} {u : Unstable} {A : LogSlice} {lo hi maxSize : Nat}

section

variable (h : st.Presents u A)
include h

theorem lastIndex : u.lastIndex = A.lastIndex := by
  have hge := h.prev_ge
  have hle := h.prev_le
  simp only [LogSlice.lastIndex, h.unstable, length_drop] at *
  omega

theorem unstable_slice (hlo : u.prev.index < lo) (hle : lo ≤ hi)
    (hhi : hi ≤ A.lastIndex + 1) : u.slice lo hi = .ok (A.readEntries lo hi) := by
  have hge := h.prev_ge
  have hdrop : u.prev.index - A.prev.index + (lo - u.prev.index - 1) = lo - A.prev.index - 1 := by
    omega
  simp only [Unstable.slice, assertTrue, hle, hlo, h.lastIndex, hhi, and_self, if_true, h.unstable,
    drop_drop, hdrop]
  rfl

theorem mustCheckOutOfBounds (hlo : A.prev.index < lo) (hle : lo ≤ hi)
    (hhi : hi ≤ A.lastIndex + 1) : st.mustCheckOutOfBounds u lo hi = .ok none := by
  have h1 : ¬ lo < A.prev.index + 1 := by omega
  have h2 : hi ≤ A.prev.index + 1 + (A.lastIndex + 1 - (A.prev.index + 1)) := by omega
  simp only [EntryReader.mustCheckOutOfBounds, assertTrue, hle, h.first, h1, if_true, if_false,
    h.lastIndex, h2]
  rfl

/-- What `slice` returns. Only if the stored part reaches the limit exactly can it be less
than `limitSize` of the range, which takes entries of no size. -/
theorem slice_cases (maxSize : Nat) (hlo : A.prev.index < lo) (hle : lo ≤ hi)
    (hhi : hi ≤ A.lastIndex + 1) :
    st.slice u lo hi maxSize = .ok (.ok (limitSize maxSize (A.readEntries lo hi))) ∨
    ∃ xs ys, A.readEntries lo hi = xs ++ ys ∧ xs ≠ [] ∧ maxSize ≤ entsSize xs ∧
      limitSize maxSize (xs ++ ys) = xs ++ limitLoop maxSize (entsSize xs) ys ∧
      st.slice u lo hi maxSize = .ok (.ok xs) := by
  rw [slice, h.mustCheckOutOfBounds hlo hle hhi]
  change (if lo = hi then _ else _) = _ ∨ ∃ xs ys, _ ∧ _ ∧ _ ∧ _ ∧ (if lo = hi then _ else _) = _
  by_cases heq : lo = hi
  · have hnil : A.readEntries lo hi = [] := by simp [readEntries, heq]
    left
    rw [if_pos heq, hnil]
    rfl
  have hlt : lo < hi := by omega
  rw [if_neg heq]
  by_cases hun : lo > u.prev.index
  · -- All of it is unstable.
    left
    rw [if_pos hun, h.unstable_slice hun hle hhi]
    rfl
  rw [if_neg hun]
  dsimp only
  by_cases hcut : hi ≤ u.prev.index + 1
  · -- All of it is stored.
    left
    rw [Nat.min_eq_left hcut, h.entries maxSize hlo hlt hcut]
    change (if hi ≤ _ then _ else _) = _
    rw [if_pos hcut]
    rfl
  -- The read crosses from storage into the unstable log.
  have hmid : min hi (u.prev.index + 1) = u.prev.index + 1 := by omega
  have hsplit := @readEntries_append A (u.prev.index + 1) lo hi (by omega) (by omega) hlo
  have hlen := @length_readEntries A lo (u.prev.index + 1) hlo (by omega)
  rw [hmid, h.entries maxSize hlo (by omega) le_rfl, hsplit]
  generalize hxs : A.readEntries lo (u.prev.index + 1) = xs at hlen
  generalize hys : A.readEntries (u.prev.index + 1) hi = ys
  have hne : xs ≠ [] := by
    rintro rfl
    rw [length_nil] at hlen
    omega
  change (if hi ≤ _ then _ else if (limitSize maxSize xs).length < _ then _ else _) = _ ∨
    ∃ xs' ys', _ ∧ _ ∧ _ ∧ _ ∧
      (if hi ≤ _ then _ else if (limitSize maxSize xs).length < _ then _ else _) = _
  rw [if_neg hcut, ← hlen]
  have happend : limitSize maxSize (xs ++ ys) = _ := limitSize_append hne
  by_cases hshort : (limitSize maxSize xs).length < xs.length
  · left
    rw [if_pos hshort] at happend ⊢
    rw [happend]
    rfl
  rw [if_neg hshort] at happend ⊢
  have hall : limitSize maxSize xs = xs := limitSize_eq_self (not_lt.mp hshort)
  rw [hall]
  change (if entsSize xs ≥ maxSize then _ else _) = _ ∨
    ∃ xs' ys', _ ∧ _ ∧ _ ∧ _ ∧ (if entsSize xs ≥ maxSize then _ else _) = _
  by_cases hsize : entsSize xs ≥ maxSize
  · right
    rw [if_pos hsize]
    exact ⟨xs, ys, rfl, hne, hsize, happend, rfl⟩
  · left
    rw [if_neg hsize, h.unstable_slice (by omega) (by omega) hhi, hys, happend,
      limitLoop_eq_crossing (by omega)]
    change (if (limitSize (maxSize - entsSize xs) ys).length = 1 ∧ _ then _ else _) = _
    by_cases hone : (limitSize (maxSize - entsSize xs) ys).length = 1 ∧
        entsSize xs + entsSize (limitSize (maxSize - entsSize xs) ys) > maxSize
    · rw [if_pos hone, if_pos hone, append_nil]
      rfl
    · rw [if_neg hone, if_neg hone]
      rfl

/-- `slice` is `limitSize` of the range. -/
theorem slice_eq_limitSize (hpos : ∀ e : Entry, 0 < Codec.entrySize e)
    (hlo : A.prev.index < lo) (hle : lo ≤ hi) (hhi : hi ≤ A.lastIndex + 1) :
    st.slice u lo hi maxSize = .ok (.ok (limitSize maxSize (A.readEntries lo hi))) := by
  rcases h.slice_cases maxSize hlo hle hhi with
    hslice | ⟨xs, ys, hsplit, -, hsize, hlimit, hslice⟩
  · exact hslice
  · have hnil := @limitLoop_eq_nil _ maxSize (entsSize xs) ys fun e => by
      have := hpos e
      omega
    rw [hslice, hsplit, hlimit, hnil, append_nil]

/-- `scan` on a range with the given pages runs the callback over them. -/
theorem scan_of_paged (hpos : ∀ e : Entry, 0 < Codec.entrySize e)
    {σ ε : Type} {v : σ → List Entry → Except ε σ} {pageSize : Nat} {es : List Entry}
    {pages : List (List Entry)} (hpages : Paged pageSize es pages) :
    ∀ {lo : Nat} {s : σ}, es = A.readEntries lo hi → A.prev.index < lo → lo ≤ hi →
      hi ≤ A.lastIndex + 1 →
      st.scan u v lo hi pageSize s = .ok ((pages.foldlM v s).mapError .callback) := by
  induction hpages with
  | nil =>
    intro lo s hes hlo hle hhi
    have hlen := length_readEntries hlo hhi
    rw [← hes, length_nil] at hlen
    rw [scan, if_neg (by omega)]
    rfl
  | @cons es pages hne hrest ih =>
    intro lo s hes hlo hle hhi
    have hlen := length_readEntries hlo hhi
    rw [← hes] at hlen
    have hlt : lo < hi := by
      have hpos := length_pos_iff.mpr hne
      omega
    have hslice := @slice_eq_limitSize _ _ _ _ _ _ pageSize h hpos hlo hle hhi
    rw [← hes] at hslice
    have hfit : (limitSize pageSize es).length ≤ es.length := by
      have := congrArg length (@limitSize_append_drop _ pageSize es)
      rw [length_append] at this
      omega
    obtain ⟨e, page, hpage⟩ := exists_cons_of_ne_nil (limitSize_ne_nil hne)
    rw [scan, if_pos hlt, hslice, foldlM_cons]
    rw [hpage] at ih hfit ⊢
    dsimp only
    cases hv : v s (e :: page) with
    | error err => rfl
    | ok s' =>
      refine ih ?_ (by omega) (by omega) hhi
      rw [hes, drop_readEntries hlo]

end

/-- Wherever the boundary between storage and the unstable log falls, `slice` is
`limitSize` of the entries of the log in the range, and `scan` visits exactly these in
order and ends. -/
theorem slice_and_scan (hpos : ∀ e : Entry, 0 < Codec.entrySize e) (h : st.Presents u A)
    (hlo : st.logFirstIndex u ≤ lo) (hle : lo ≤ hi) (hhi : hi ≤ u.lastIndex + 1) :
    (∀ maxSize, st.slice u lo hi maxSize =
      .ok (.ok (limitSize maxSize (A.readEntries lo hi)))) ∧
    ∀ {σ ε : Type} (v : σ → List Entry → Except ε σ) (s : σ) (pageSize : Nat), ∃ pages,
      Paged pageSize (A.readEntries lo hi) pages ∧ pages.flatten = A.readEntries lo hi ∧
      st.scan u v lo hi pageSize s = .ok ((pages.foldlM v s).mapError .callback) := by
  rw [h.first] at hlo
  rw [h.lastIndex] at hhi
  refine ⟨fun _ => h.slice_eq_limitSize hpos hlo hle hhi, fun v s pageSize => ?_⟩
  obtain ⟨pages, hpages⟩ := exists_paged pageSize (A.readEntries lo hi)
  exact ⟨pages, hpages, hpages.flatten, h.scan_of_paged hpos hpages rfl hlo hle hhi⟩

end Presents

end EntryReader

/-! ## Memory storage -/

section Memory

variable {ms : MemoryStorage} {u : Unstable}

/-- A memory storage as it is read. -/
def MemoryStorage.reader [Codec] (ms : MemoryStorage) : EntryReader where
  firstIndex := ms.firstIndex
  entries := ms.entries

theorem RaftLog.slice_eq_reader [Codec] (l : RaftLog) (lo hi maxSize : Nat) :
    l.slice lo hi maxSize = l.storage.reader.slice l.unstable lo hi maxSize := rfl

/-- The panics of reads: the arguments are out of bounds, or storage lacks the entries. -/
def ReadPanic (p : Panic) : Prop :=
  p = .sliceOutOfBounds ∨ p = .entriesUnavailable ∨ p = .storageOutOfBounds ∨ p = .indexOutOfRange

theorem Unstable.slice_sat (u : Unstable) (lo hi : Nat) :
    Sat (u.slice lo hi) ReadPanic fun es => lo < hi → es ≠ [] := by
  unfold Unstable.slice
  refine sat_assert_bind (fun _ => .inl rfl) fun _ => ?_
  refine sat_assert_bind (fun _ => .inl rfl) fun hbounds hlt => ?_
  rw [← length_pos_iff, length_take, length_drop]
  unfold LogSlice.lastIndex at hbounds
  omega

theorem MemoryStorage.entries_sat [Codec] (ms : MemoryStorage) (lo hi maxSize : Nat) :
    Sat (ms.entries lo hi maxSize) ReadPanic fun x => ∀ es, x = .ok es → lo < hi → es ≠ [] := by
  unfold MemoryStorage.entries
  refine .ite (fun _ => nofun) fun hbase => ?_
  refine sat_assert_bind (fun _ => .inr (.inr (.inl rfl))) fun hend => ?_
  refine .ite (fun _ => nofun) fun _ => ?_
  refine sat_assert_bind (fun _ => .inr (.inr (.inr rfl))) fun _ => ?_
  rintro es ⟨⟩ hlt
  refine limitSize_ne_nil ?_
  rw [← length_pos_iff, length_take, length_drop]
  unfold MemoryStorage.lastIndex at hend
  omega

/-- How a read can fail, and that it otherwise returns at least one entry of a range that
is not empty, for every size limit. -/
theorem RaftLog.slice_sat [Codec] (l : RaftLog) (lo hi maxSize : Nat) :
    Sat (l.slice lo hi maxSize) ReadPanic fun x => ∀ es, x = .ok es → lo < hi → es ≠ [] := by
  unfold RaftLog.slice
  refine .bind (P := fun _ => True) ?_ fun err _ => ?_
  · unfold RaftLog.mustCheckOutOfBounds
    refine sat_assert_bind (fun _ => .inl rfl) fun _ => ?_
    refine .ite (fun _ => trivial) fun _ => ?_
    exact sat_assert_bind (fun _ => .inl rfl) fun _ => trivial
  cases err with
  | some err => exact nofun
  | none =>
    refine .ite (fun heq => fun _ _ hlt => absurd heq hlt.ne) fun _ =>
      .ite (fun _ => ?_) fun hun => ?_
    · refine .bind (l.unstable.slice_sat lo hi) fun ents hents => ?_
      rintro es ⟨⟩ hlt
      exact limitSize_ne_nil (hents hlt)
    · refine .bind (l.storage.entries_sat lo (min hi (l.unstable.prev.index + 1)) maxSize)
        fun ents hents => ?_
      cases ents with
      | error err =>
        cases err with
        | compacted => exact nofun
        | _ => exact .inr (.inl rfl)
      | ok ents =>
        have hstored : ∀ es, (Except.ok ents : Except StorageErr _) = .ok es → lo < hi →
            es ≠ [] := fun es hes hlt => hents es hes (by omega)
        refine .ite (fun _ => hstored) fun _ => .ite (fun _ => hstored) fun _ =>
          .ite (fun _ => hstored) fun _ => ?_
        refine .bind (l.unstable.slice_sat _ _) fun _ _ => ?_
        refine .ite (fun _ => hstored) fun _ => ?_
        rintro es ⟨⟩ hlt
        exact append_ne_nil_of_left_ne_nil (hstored ents rfl hlt) _

theorem RaftLog.entries_sat [Codec] (l : RaftLog) (i maxSize : Nat) :
    Sat (l.entries i maxSize) ReadPanic fun x =>
      ∀ es, x = .ok es → i ≤ l.lastIndex → es ≠ [] := by
  unfold RaftLog.entries
  refine .ite (fun hlt _ _ hle => absurd hle (not_le.mpr hlt)) fun _ => ?_
  exact (l.slice_sat _ _ _).imp fun x hx es hes hle => hx es hes (Nat.lt_succ_of_le hle)

/-- The stored entries up to `unstable.prev`, and the unstable ones. -/
def MemoryStorage.join (ms : MemoryStorage) (u : Unstable) : LogSlice where
  term := u.term
  prev := ms.base
  entries := ms.ents.take (u.prev.index - ms.base.index) ++ u.entries

theorem MemoryStorage.length_take_stored (hle : u.prev.index ≤ ms.lastIndex) :
    (ms.ents.take (u.prev.index - ms.base.index)).length = u.prev.index - ms.base.index := by
  rw [length_take]
  unfold lastIndex at hle
  omega

theorem MemoryStorage.readEntries_join {lo hi : Nat} (hlo : ms.base.index < lo) (hlt : lo < hi)
    (hhi : hi ≤ u.prev.index + 1) (hle : u.prev.index ≤ ms.lastIndex) :
    (ms.join u).readEntries lo hi = (ms.ents.drop (lo - ms.base.index - 1)).take (hi - lo) := by
  have hlen := length_take_stored hle
  have hdrop : lo - ms.base.index - 1 ≤
      (ms.ents.take (u.prev.index - ms.base.index)).length := by omega
  have htake : hi - lo ≤ ((ms.ents.take (u.prev.index - ms.base.index)).drop
      (lo - ms.base.index - 1)).length := by
    rw [length_drop]
    omega
  have hmin :
      min (hi - lo) (u.prev.index - ms.base.index - (lo - ms.base.index - 1)) = hi - lo := by
    omega
  show ((ms.ents.take _ ++ u.entries).drop (lo - ms.base.index - 1)).take (hi - lo) = _
  rw [drop_append_of_le_length hdrop, take_append_of_le_length htake, drop_take, take_take, hmin]

/-- A memory storage that has the entries up to `unstable.prev` meets the contract. -/
theorem MemoryStorage.presents_join [Codec] (hsnap : u.snapshot = none)
    (hge : ms.base.index ≤ u.prev.index) (hle : u.prev.index ≤ ms.lastIndex) :
    ms.reader.Presents u (ms.join u) where
  first := by simp [EntryReader.logFirstIndex, Unstable.maybeFirstIndex, hsnap, reader, join,
    firstIndex]
  prev_ge := hge
  prev_le := by
    simp only [LogSlice.lastIndex, join, length_append, length_take_stored hle]
    omega
  unstable := (drop_left' (length_take_stored hle)).symm
  entries := by
    intro lo hi maxSize hlo hlt hhi
    have hbase : ms.base.index < lo := hlo
    have hne : ms.ents ≠ [] := by
      intro hnil
      simp only [lastIndex, hnil, length_nil] at hle
      omega
    have hend : hi ≤ ms.lastIndex + 1 := by omega
    rw [readEntries_join hbase hlt hhi hle]
    simp only [reader, MemoryStorage.entries, assertTrue, not_le.mpr hbase, hend, hne, hlt.le,
      if_true, if_false]
    rfl

end Memory

/-- Four entries, the first two of them stored. -/
def crossingEnts : List Entry :=
  [{ term := 1, index := 1, data := [1] }, { term := 1, index := 2, data := [2] },
    { term := 1, index := 3, data := [3] }, { term := 1, index := 4, data := [4] }]

def crossingStorage : MemoryStorage where
  ents := crossingEnts.take 2

def crossingUnstable : Unstable where
  term := 1
  prev := { term := 1, index := 2 }
  entries := crossingEnts.drop 2
  entryInProgress := 2

/-- A callback that counts and never stops the scan. -/
def countEntries (n : Nat) (page : List Entry) : Except Unit Nat := .ok (n + page.length)

/-- An entry has nine bytes: a read of 27 crosses the boundary, and so does a scan in pages of
20. -/
theorem slice_and_scan_crossing :
    @EntryReader.slice wireCodec (@MemoryStorage.reader wireCodec crossingStorage)
        crossingUnstable 1 5 27 = .ok (.ok (crossingEnts.take 3)) ∧
      ∃ pages : List (List Entry), pages.flatten = crossingEnts ∧
        @EntryReader.scan wireCodec _ _ (@MemoryStorage.reader wireCodec crossingStorage)
          crossingUnstable countEntries 1 5 20 0 =
            .ok ((pages.foldlM countEntries 0).mapError .callback) := by
  let _ := wireCodec
  have hpresents : crossingStorage.reader.Presents crossingUnstable
      (crossingStorage.join crossingUnstable) :=
    MemoryStorage.presents_join rfl (Nat.zero_le _) le_rfl
  have hboth := @EntryReader.Presents.slice_and_scan _ _ _ _ 1 5
    (fun e => Nat.add_pos_left (Nat.add_pos_left (Nat.add_pos_left (by decide) _) _) _)
    hpresents le_rfl (by decide) le_rfl
  obtain ⟨pages, -, hflat, hscan⟩ := hboth.2 countEntries 0 20
  exact ⟨hboth.1 27, pages, hflat, hscan⟩

end Cockroach.Raft
