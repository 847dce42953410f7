import Cockroach.Lib.Ring
import Cockroach.Raft.Tracker

/-!
# The window of in-flight messages

`Inflights.indexes` reads the ring buffer as the list of the indices in flight,
and says what `Add`, `FreeLE` and `reset` do to that list: the buffer is a
bounded queue (`inflights_fifo`). `Progress.Window` is what the fields of a
progress are to each other: `Match < Next`, and while replicating the indices in
flight increase strictly between the two. Every function of `progress.go` keeps
it, each under the condition its callers check.
-/

namespace Cockroach.Raft

open Lib List

namespace Inflights

variable {i i' : Inflights}

/-- The index in slot `n`. -/
def indexAt (i : Inflights) (n : Nat) : Nat := (i.buffer.getD n {}).index

/-- The indices in flight, oldest first. -/
def indexes (i : Inflights) : List Nat := ring i.indexAt i.size i.start i.count

/-- The messages in flight, oldest first. -/
def contents (i : Inflights) : List Inflight := ring (i.buffer.getD · {}) i.size i.start i.count

theorem indexes_eq (i : Inflights) : i.indexes = i.contents.map (·.index) :=
  map_map.symm

/-- The window is inside the ring. -/
structure InRing (i : Inflights) : Prop where
  count_le : i.count ≤ i.size
  start_lt : 0 < i.size → i.start < i.size

theorem inRing_new (size : Nat) (maxBytes : UInt64) : (new size maxBytes).InRing :=
  ⟨Nat.zero_le _, id⟩

theorem InRing.reset (_ : i.InRing) : i.reset.InRing := ⟨Nat.zero_le _, id⟩

@[simp] theorem indexes_reset (i : Inflights) : i.reset.indexes = [] := rfl

theorem getD_grow (i : Inflights) (n : Nat) : i.grow.buffer.getD n {} = i.buffer.getD n {} := by
  have hempty : ∀ m k : Nat, ((replicate m ({} : Inflight))[k]?).getD {} = {} := by
    intro m k
    rw [getElem?_replicate]
    split <;> rfl
  simp only [grow, getD_eq_getElem?_getD]
  rcases Nat.lt_or_ge n i.buffer.length with h | h
  · rw [getElem?_append_left h]
  · rw [getElem?_append_right h, getElem?_eq_none h, hempty]
    rfl

variable {index : Nat} {bytes maxBytes : UInt64} {size : Nat}

/-- The slot that `Add` writes, in the buffer that has it. -/
theorem add_eq_ok (h : i.add index bytes = .ok i') :
    ∃ buffer : List Inflight, i.full = false ∧ wrap i.size (i.start + i.count) < buffer.length ∧
      i.buffer.length ≤ buffer.length ∧ (∀ n, buffer.getD n {} = i.buffer.getD n {}) ∧
      i' = { i with
        buffer := buffer.set (wrap i.size (i.start + i.count)) { index, bytes }
        count := i.count + 1
        bytes := i.bytes + bytes } := by
  obtain ⟨_, hfull, h⟩ := bind_eq_ok.mp h
  obtain ⟨_, hlt, h⟩ := bind_eq_ok.mp h
  rw [assertTrue_eq_ok] at hfull hlt
  cases h
  by_cases hgrow : wrap i.size (i.start + i.count) ≥ i.buffer.length
  · have hgrow' : (if i.start + i.count ≥ i.size then i.start + i.count - i.size
        else i.start + i.count) ≥ i.buffer.length := hgrow
    rw [if_pos hgrow'] at hlt ⊢
    refine ⟨i.grow.buffer, hfull, hlt, ?_, getD_grow i, rfl⟩
    rw [grow, length_append]
    exact Nat.le_add_right _ _
  · have hgrow' : ¬ (if i.start + i.count ≥ i.size then i.start + i.count - i.size
        else i.start + i.count) ≥ i.buffer.length := hgrow
    rw [if_neg hgrow'] at hlt ⊢
    exact ⟨i.buffer, hfull, hlt, le_rfl, fun _ => rfl, rfl⟩

theorem InRing.count_lt (hi : i.InRing) (hfull : i.full = false) : i.count < i.size := by
  refine lt_of_le_of_ne hi.count_le fun heq => ?_
  simp [full, heq] at hfull

/-- `Add` puts a message at the end. -/
theorem InRing.add_contents (hi : i.InRing) (h : i.add index bytes = .ok i') :
    i'.InRing ∧ i'.contents = i.contents ++ [⟨index, bytes⟩] := by
  obtain ⟨buffer, hfull, hlt, -, hread, rfl⟩ := add_eq_ok h
  have hcount := hi.count_lt hfull
  refine ⟨⟨hcount, hi.start_lt⟩, ?_⟩
  show ring _ i.size i.start (i.count + 1) = _
  rw [ring_concat]
  congr 1
  · -- the slot that is written is none of those in use
    refine ring_congr fun k hk => ?_
    have hne : wrap i.size (i.start + k) ≠ wrap i.size (i.start + i.count) := wrap_ne hcount hk
    simp only [getD_eq_getElem?_getD, getElem?_set_ne hne.symm]
    simpa only [getD_eq_getElem?_getD] using hread _
  · simp [getD_eq_getElem?_getD, getElem?_set_self hlt]

/-- `Add` puts an index at the end. -/
theorem InRing.add (hi : i.InRing) (h : i.add index bytes = .ok i') :
    i'.InRing ∧ i'.indexes = i.indexes ++ [index] := by
  obtain ⟨hring, hcontents⟩ := hi.add_contents h
  refine ⟨hring, ?_⟩
  rw [indexes_eq, indexes_eq, hcontents, map_append]
  rfl

/-- The bytes of messages. -/
def totalBytes (l : List Inflight) : Nat := (l.map (·.bytes.toNat)).sum

theorem ofNat_totalBytes_cons (x : Inflight) (l : List Inflight) :
    UInt64.ofNat (totalBytes (x :: l)) = x.bytes + .ofNat (totalBytes l) := by
  rw [totalBytes, map_cons, sum_cons, UInt64.ofNat_add, UInt64.ofNat_toNat]
  rfl

/-- The loop of `FreeLE` skips the messages up to `upTo`. -/
theorem freeLoop_spec (i : Inflights) (upTo : Nat) : ∀ left idx n bytes, left ≤ i.size →
    idx < i.size → ∃ k ≤ left, (i.freeLoop upTo left idx n bytes).1 = n + k ∧
      (i.freeLoop upTo left idx n bytes).2.2 = wrap i.size (idx + k) ∧
      ∃ l, l = (ring (i.buffer.getD · {}) i.size idx left).dropWhile (·.index ≤ upTo) ∧
        ring (i.buffer.getD · {}) i.size (wrap i.size (idx + k)) (left - k) = l ∧
        (i.freeLoop upTo left idx n bytes).2.1 + .ofNat (totalBytes l) =
          bytes + .ofNat (totalBytes (ring (i.buffer.getD · {}) i.size idx left))
  | 0, idx, n, bytes, _, hidx => ⟨0, le_rfl, rfl, (wrap_of_lt hidx).symm, [], rfl, rfl, rfl⟩
  | left + 1, idx, n, bytes, hleft, hidx => by
    unfold freeLoop
    dsimp only
    rw [ring_cons hidx hleft]
    by_cases hfirst : upTo < (i.buffer.getD idx {}).index
    · rw [if_pos hfirst, dropWhile_cons_of_neg (by simpa using hfirst)]
      refine ⟨0, Nat.zero_le _, rfl, (wrap_of_lt hidx).symm, _, rfl, ?_, rfl⟩
      rw [Nat.add_zero, wrap_of_lt hidx, Nat.sub_zero, ring_cons hidx hleft]
    · rw [if_neg hfirst, dropWhile_cons_of_pos (by simpa using hfirst)]
      have hwrap : wrap i.size (idx + 1) < i.size := wrap_lt (by omega)
      obtain ⟨k, hk, hn, hidx', l, hl, hring, hbytes⟩ := freeLoop_spec i upTo left _ (n + 1)
        (bytes + (i.buffer.getD idx {}).bytes) (Nat.le_of_succ_le hleft) hwrap
      have hpos : wrap i.size (wrap i.size (idx + 1) + k) = wrap i.size (idx + (k + 1)) := by
        unfold wrap
        split <;> split <;> split <;> omega
      rw [hpos] at hidx' hring
      refine ⟨k + 1, Nat.succ_le_succ hk, ?_, hidx', l, hl, ?_, hbytes.trans ?_⟩
      · rw [show n + (k + 1) = n + 1 + k by omega]
        exact hn
      · rw [Nat.add_sub_add_right]
        exact hring
      · rw [ofNat_totalBytes_cons, UInt64.add_assoc]

/-- What `FreeLE` does to the window. -/
structure Frees (i i' : Inflights) (l : List Inflight) : Prop where
  inRing : i'.InRing
  contents : i'.contents = l
  bytes : i.bytes = .ofNat (totalBytes i.contents) → i'.bytes = .ofNat (totalBytes l)
  position : i'.start + i'.count ≤ i.start + i.count
  same : i'.size = i.size ∧ i'.maxBytes = i.maxBytes ∧ i'.buffer = i.buffer

/-- `FreeLE` drops the messages up to `upTo`. -/
theorem InRing.frees (hi : i.InRing) (upTo : Nat) :
    Frees i (i.freeLE upTo) (i.contents.dropWhile (·.index ≤ upTo)) := by
  have hsize := hi.count_le
  unfold Inflights.freeLE
  by_cases hnone : i.count = 0 ∨ upTo < (i.buffer.getD i.start {}).index
  · have hkeep : i.contents.dropWhile (·.index ≤ upTo) = i.contents := by
      cases hcount : i.count with
      | zero => simp [contents, hcount]
      | succ count =>
        have hlt := hnone.resolve_left (by omega)
        rw [contents, hcount, ring_cons (hi.start_lt (by omega)) (by omega),
          dropWhile_cons_of_neg (by simpa using hlt)]
    rw [if_pos hnone, hkeep]
    exact ⟨hi, rfl, id, le_rfl, rfl, rfl, rfl⟩
  · rw [if_neg hnone]
    rw [not_or] at hnone
    have hstart := hi.start_lt (by omega)
    obtain ⟨k, hk, hn, hidx, l, hl, hring, hbytes⟩ :=
      freeLoop_spec i upTo i.count i.start 0 0 hsize hstart
    rw [contents, ← hl]
    dsimp only
    rw [hn, hidx, Nat.zero_add]
    have hwrap : wrap i.size (i.start + k) < i.size := wrap_lt (by omega)
    refine ⟨⟨(Nat.sub_le _ _).trans hsize, fun _ => ?_⟩, ?_, fun hb => ?_, ?_, rfl, rfl, rfl⟩
    · dsimp only
      split <;> omega
    · show ring _ i.size _ (i.count - k) = l
      rw [← hring]
      split
      · rename_i h0
        rw [h0, ring_zero, ring_zero]
      · rfl
    · have hsum := hbytes.trans (UInt64.zero_add _)
      rw [UInt64.add_comm] at hsum
      rw [hb, contents, ← hsum, UInt64.add_sub_cancel]
    · dsimp only
      unfold wrap
      split
      · omega
      · split <;> omega

/-- `FreeLE` drops the indices up to `upTo`. -/
theorem InRing.freeLE (hi : i.InRing) (upTo : Nat) :
    (i.freeLE upTo).InRing ∧ (i.freeLE upTo).indexes = i.indexes.dropWhile (· ≤ upTo) := by
  have h := hi.frees upTo
  refine ⟨h.inRing, ?_⟩
  rw [indexes_eq, indexes_eq, h.contents, dropWhile_map]
  rfl

/-! ### A bounded queue -/

/-- The runs of a window, with the queue that each state stands for. -/
inductive Run (size : Nat) (maxBytes : UInt64) : Inflights → List Inflight → Prop
  | new : Run size maxBytes (new size maxBytes) []
  | add {i i' : Inflights} {l : List Inflight} {index : Nat} {bytes : UInt64} :
      Run size maxBytes i l → i.add index bytes = .ok i' →
        Run size maxBytes i' (l ++ [⟨index, bytes⟩])
  | freeLE {i : Inflights} {l : List Inflight} (upTo : Nat) : Run size maxBytes i l →
      Run size maxBytes (i.freeLE upTo) (l.dropWhile (·.index ≤ upTo))
  | reset {i : Inflights} {l : List Inflight} : Run size maxBytes i l →
      Run size maxBytes i.reset []

/-- The window holds the queue `l`. -/
structure Queues (size : Nat) (maxBytes : UInt64) (i : Inflights) (l : List Inflight) : Prop
    extends i.InRing where
  limits : i.size = size ∧ i.maxBytes = maxBytes
  contents : i.contents = l
  bytes : i.bytes = .ofNat (totalBytes l)
  /-- the buffer ends before the window does only if it has as many slots as there can be -/
  backed : min (i.start + i.count) i.size ≤ i.buffer.length

theorem Run.queues {l : List Inflight} (h : Run size maxBytes i l) :
    Queues size maxBytes i l := by
  induction h with
  | new => exact ⟨inRing_new size maxBytes, ⟨rfl, rfl⟩, rfl, rfl, Nat.min_le_left _ _⟩
  | @add i i' l index bytes _ hadd ih =>
    obtain ⟨hring, hcontents⟩ := ih.add_contents hadd
    obtain ⟨buffer, hfull, hlt, hle, -, rfl⟩ := add_eq_ok hadd
    refine ⟨hring, ih.limits, hcontents.trans (congrArg (· ++ _) ih.contents), ?_, ?_⟩
    · show i.bytes + bytes = _
      rw [ih.bytes, totalBytes, totalBytes, map_append, sum_append, UInt64.ofNat_add]
      simp
    · have hback := ih.backed
      have hcount := ih.count_lt hfull
      show min (i.start + (i.count + 1)) i.size ≤ (buffer.set _ _).length
      rw [length_set]
      unfold wrap at hlt
      split at hlt <;> omega
  | @freeLE i l upTo _ ih =>
    have hf := ih.frees upTo
    obtain ⟨hsize, hmax, hbuffer⟩ := hf.same
    rw [ih.contents] at hf
    refine ⟨hf.inRing, ⟨hsize.trans ih.limits.1, hmax.trans ih.limits.2⟩, hf.contents,
      hf.bytes (ih.contents ▸ ih.bytes), ?_⟩
    rw [hsize, hbuffer]
    exact (min_le_min_right _ hf.position).trans ih.backed
  | reset _ ih => exact ⟨ih.reset, ih.limits, rfl, rfl, by simp [Inflights.reset]⟩

/-- `Add` has room in the buffer unless the window is full. -/
theorem Queues.add {l : List Inflight} (h : Queues size maxBytes i l)
    (hfull : i.full = false) (index : Nat) (bytes : UInt64) : ∃ i', i.add index bytes = .ok i' := by
  have hcount := h.count_lt hfull
  have hstart := h.start_lt (by omega)
  have hback := h.backed
  have hroom : wrap i.size (i.start + i.count) <
      (if wrap i.size (i.start + i.count) ≥ i.buffer.length then i.grow else i).buffer.length := by
    split
    · -- the slot is the first one that the buffer does not have
      rename_i hge
      rw [grow, length_append, length_replicate]
      unfold wrap at hge ⊢
      split at hge <;> split_ifs <;> omega
    · exact not_le.mp ‹_›
  exact ⟨_, bind_eq_ok.mpr ⟨(), assertTrue_eq_ok.mpr hfull,
    bind_eq_ok.mpr ⟨(), assertTrue_eq_ok.mpr hroom, rfl⟩⟩⟩

/-- The window is a queue of at most `size` messages, whose bytes are counted modulo `2^64`. -/
theorem inflights_fifo {l : List Inflight} (h : Run size maxBytes i l) :
    i.contents = l ∧ i.count = l.length ∧ i.bytes = .ofNat (totalBytes l) ∧
    (totalBytes l < 2 ^ 64 → (i.full = true ↔
      l.length = size ∨ maxBytes ≠ 0 ∧ maxBytes.toNat ≤ totalBytes l)) ∧
    (∀ k < i.count, wrap i.size (i.start + k) < i.buffer.length) ∧
    (i.full = false → ∀ index bytes, ∃ i', i.add index bytes = .ok i') := by
  have hq := h.queues
  have hcount : i.count = l.length := by
    rw [← hq.contents, contents, length_ring]
  refine ⟨hq.contents, hcount, hq.bytes, fun hfits => ?_, fun k hk => ?_, fun hf => hq.add hf⟩
  · have hbytes : maxBytes ≤ i.bytes ↔ maxBytes.toNat ≤ totalBytes l := by
      rw [hq.bytes, UInt64.le_iff_toNat_le, UInt64.toNat_ofNat_of_lt' hfits]
    rw [full, hcount, hq.limits.1, hq.limits.2]
    simp [hbytes]
  · have hback := hq.backed
    have hle := hq.count_le
    have hstart := hq.start_lt (by omega)
    unfold wrap
    split <;> omega

/-- Three messages through a window of two: the last one is in the first slot. -/
theorem inflights_fifo_wrapped : ∃ i, Run 2 8 i [⟨7, 1⟩, ⟨9, 4⟩] ∧ i.start = 1 ∧
    i.contents = [⟨7, 1⟩, ⟨9, 4⟩] ∧ i.bytes = 5 ∧ i.full = true := by
  have h := @Run.add 2 8 _ _ _ 7 1 (@Run.add 2 8 _ _ _ 5 2 .new rfl) rfl
  have h := @Run.add 2 8 _ _ _ 9 4 (h.freeLE 5) rfl
  obtain ⟨hcontents, -, hbytes, hfull, -⟩ := inflights_fifo h
  exact ⟨_, h, rfl, hcontents, hbytes, (hfull (by decide)).mpr (.inl rfl)⟩

/-- What is left of an increasing list after its start up to `n` is dropped. -/
theorem lt_of_mem_dropWhile {l : List Nat} (hl : l.Pairwise (· < ·)) {n k : Nat}
    (hk : k ∈ l.dropWhile (· ≤ n)) : n < k := by
  induction l with
  | nil => cases hk
  | cons x xs ih =>
    obtain ⟨hx, hxs⟩ := pairwise_cons.mp hl
    by_cases hle : x ≤ n
    · rw [dropWhile_cons_of_pos (by simpa using hle)] at hk
      exact ih hxs hk
    · rw [dropWhile_cons_of_neg (by simpa using hle)] at hk
      have hlt : n < x := not_le.mp hle
      rcases mem_cons.mp hk with rfl | hk
      · exact hlt
      · exact hlt.trans (hx k hk)

end Inflights

namespace Progress

variable {pr pr' : Progress}

/-- The fields of a progress fit together. -/
structure Window (pr : Progress) : Prop where
  inRing : pr.inflights.InRing
  match_lt : pr.matchIdx < pr.next
  increasing : pr.state = .replicate → pr.inflights.indexes.Pairwise (· < ·)
  inside : pr.state = .replicate → ∀ i ∈ pr.inflights.indexes, pr.matchIdx < i ∧ i < pr.next

namespace Window

/-- Nothing is in flight. -/
theorem of_idle (hring : pr.inflights.InRing) (hlt : pr.matchIdx < pr.next)
    (hidle : pr.inflights.indexes = []) : pr.Window where
  inRing := hring
  match_lt := hlt
  increasing _ := by simp [hidle]
  inside _ := by simp [hidle]

variable (h : pr.Window)
include h

/-- Only the four fields matter. -/
theorem congr (hm : pr'.matchIdx = pr.matchIdx) (hn : pr'.next = pr.next)
    (hs : pr'.state = pr.state) (hi : pr'.inflights = pr.inflights) : pr'.Window where
  inRing := hi ▸ h.inRing
  match_lt := by rw [hm, hn]; exact h.match_lt
  increasing := by rw [hs, hi]; exact h.increasing
  inside := by rw [hs, hi, hm, hn]; exact h.inside

theorem becomeProbe : pr.becomeProbe.Window := by
  refine of_idle h.inRing.reset ?_ (Inflights.indexes_reset _)
  show pr.matchIdx < if pr.state = .snapshot then max (pr.matchIdx + 1) (pr.pendingSnapshot + 1)
    else pr.matchIdx + 1
  split <;> omega

theorem becomeReplicate : pr.becomeReplicate.Window :=
  of_idle h.inRing.reset (Nat.lt_succ_self _) (Inflights.indexes_reset _)

theorem becomeSnapshot {snapshoti : Nat} (hle : pr.matchIdx ≤ snapshoti) :
    (pr.becomeSnapshot snapshoti).Window :=
  of_idle h.inRing.reset (Nat.lt_succ_of_le hle) (Inflights.indexes_reset _)

theorem sentEntries {entries bytes : Nat}
    (hsent : pr.sentEntries entries bytes = .ok pr') : pr'.Window := by
  unfold Progress.sentEntries at hsent
  split at hsent
  · rename_i hcond
    obtain ⟨inflights, hadd, hsent⟩ := bind_eq_ok.mp hsent
    cases hsent
    obtain ⟨hring, hindexes⟩ := h.inRing.add hadd
    have hlt := h.match_lt
    refine ⟨hring, by dsimp only; omega, fun hs => ?_, fun hs i hi => ?_⟩
    · -- everything in flight is below the old `next`
      show inflights.indexes.Pairwise (· < ·)
      rw [hindexes, pairwise_append]
      refine ⟨h.increasing hs, pairwise_singleton _ _, fun i hi j hj => ?_⟩
      obtain rfl := mem_singleton.mp hj
      have := (h.inside hs i hi).2
      omega
    · show pr.matchIdx < i ∧ i < pr.next + entries
      rw [show Inflights.indexes _ = _ from hindexes] at hi
      rcases mem_append.mp hi with hi | hi
      · have := h.inside hs i hi
        omega
      · obtain rfl := mem_singleton.mp hi
        omega
  · cases hsent
    exact h.congr rfl rfl rfl rfl

/-- An acknowledgement of `n` frees what is in flight up to `n`. -/
theorem maybeUpdate_freeLE (n : Nat) : Window { (pr.maybeUpdate n).2 with
      inflights := (pr.maybeUpdate n).2.inflights.freeLE n } := by
  have hsame : (pr.maybeUpdate n).2.inflights = pr.inflights ∧
      (pr.maybeUpdate n).2.state = pr.state ∧ pr.next ≤ (pr.maybeUpdate n).2.next ∧
      (pr.maybeUpdate n).2.matchIdx = max pr.matchIdx n ∧
      (pr.maybeUpdate n).2.matchIdx < (pr.maybeUpdate n).2.next := by
    have hlt := h.match_lt
    unfold Progress.maybeUpdate
    split
    · exact ⟨rfl, rfl, le_rfl, (max_eq_left ‹_›).symm, hlt⟩
    · refine ⟨rfl, rfl, le_max_left _ _, ?_, ?_⟩ <;> dsimp only <;> omega
  obtain ⟨hinf, hstate, hnext, hmatch, hlt⟩ := hsame
  rw [hinf]
  obtain ⟨hring, hindexes⟩ := h.inRing.freeLE n
  refine ⟨hring, hlt, fun hs => ?_, fun hs i hi => ?_⟩
  · show (pr.inflights.freeLE n).indexes.Pairwise (· < ·)
    rw [hindexes]
    exact (h.increasing (hstate ▸ hs)).sublist (dropWhile_sublist _)
  · have hmem : i ∈ pr.inflights.indexes.dropWhile (· ≤ n) := hindexes ▸ hi
    obtain ⟨hlow, hhigh⟩ := h.inside (hstate ▸ hs) i ((dropWhile_sublist _).mem hmem)
    have hgt : n < i := Inflights.lt_of_mem_dropWhile (h.increasing (hstate ▸ hs)) hmem
    show (pr.maybeUpdate n).2.matchIdx < i ∧ i < (pr.maybeUpdate n).2.next
    omega

end Window

end Progress

end Cockroach.Raft
