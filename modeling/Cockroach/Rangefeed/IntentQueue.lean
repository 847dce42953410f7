import Mathlib
import Cockroach.Rangefeed.ResolvedTimestamp
import Cockroach.Lib.Outcome

/-!
# The queue of unresolved transactions

A queue is seen as the timestamps and reference counts of its transactions (`view`).
It is well-formed (`Wf`) when every transaction knows its place in the heap and the
heap is ordered; then the oldest transaction is at its top (`oldest_isOldest`), and
`updateTxn` and `del` do to the view what they say. What they return is right: when it
is false the oldest timestamp has not moved.
-/

namespace Cockroach.Rangefeed

open Lib Hlc Function Option
open List hiding any_eq_true getElem?_eq_some_iff

/-- The oldest timestamp of a view. -/
def IsOldest (v : UUID → Option (Timestamp × Int)) : Option Timestamp → Prop
  | none => ∀ id, v id = none
  | some t => (∃ id c, v id = some (t, c)) ∧ ∀ id t' c, v id = some (t', c) → t ≤ t'

theorem IsOldest.unique {v : UUID → Option (Timestamp × Int)} :
    ∀ {o o' : Option Timestamp}, IsOldest v o → IsOldest v o' → o = o'
  | none, none, _, _ => rfl
  | none, some t, h, h' => by
    obtain ⟨⟨id, c, hid⟩, -⟩ := h'
    rw [h id] at hid
    cases hid
  | some t, none, h, h' => by
    obtain ⟨⟨id, c, hid⟩, -⟩ := h
    rw [h' id] at hid
    cases hid
  | some t, some t', h, h' => by
    obtain ⟨⟨id, c, hid⟩, hle⟩ := h
    obtain ⟨⟨id', c', hid'⟩, hle'⟩ := h'
    rw [le_antisymm (hle id' t' c' hid') (hle' id t c hid)]

/-- Only the timestamps count. -/
theorem IsOldest.congr {v v' : UUID → Option (Timestamp × Int)}
    {o : Option Timestamp} (h : IsOldest v o)
    (heq : ∀ id, (v' id).map Prod.fst = (v id).map Prod.fst) :
    IsOldest v' o := by
  cases o with
  | none =>
    intro id
    have := heq id
    rw [h id] at this
    exact map_eq_none_iff.mp this
  | some t =>
    obtain ⟨⟨id, c, hid⟩, hle⟩ := h
    refine ⟨⟨id, ?_⟩, fun id' t' c' hid' => ?_⟩
    · have := heq id
      rw [hid] at this
      obtain ⟨⟨t', c'⟩, hv, rfl⟩ := map_eq_some_iff.mp this
      exact ⟨c', hv⟩
    · have := heq id'
      rw [hid'] at this
      obtain ⟨⟨t₁, c₁⟩, hv, ht⟩ := map_eq_some_iff.mp this.symm
      cases ht
      exact hle id' _ c₁ hv

namespace UnresolvedIntentQueue

variable {q : UnresolvedIntentQueue} {i j : Nat} {id : UUID} {txn : UnresolvedTxn}

/-- The timestamp and the reference count of a transaction that is tracked. -/
def view (q : UnresolvedIntentQueue) (id : UUID) : Option (Timestamp × Int) :=
  q.txns[id]?.map fun t => (t.timestamp, t.refCount)

theorem view_of_some (h : q.txns[id]? = some txn) :
    q.view id = some (txn.timestamp, txn.refCount) := by
  unfold view
  rw [h]
  rfl

theorem view_of_none (h : q.txns[id]? = none) : q.view id = none := by
  unfold view
  rw [h]
  rfl

variable {q' : UnresolvedIntentQueue} {n : Nat}

/-- The view once the map has changed at one transaction. -/
theorem view_update {o : Option UnresolvedTxn}
    (h : ∀ id' : UUID, q'.txns[id']? = if id' = id then o else q.txns[id']?) :
    q'.view = update q.view id (o.map fun t => (t.timestamp, t.refCount)) := by
  funext id'
  unfold view
  rw [h]
  by_cases heq : id' = id
  · subst heq
    rw [if_pos rfl, update_self]
  · rw [if_neg heq, update_of_ne heq]

/-- The map and the heap hold the same transactions, and each knows its place. -/
structure Placed (q : UnresolvedIntentQueue) : Prop where
  listed : ∀ (id : UUID) (txn : UnresolvedTxn), q.txns[id]? = some txn →
    q.minHeap[txn.index]? = some id ∧ txn.txnID = id
  tracked : ∀ (i : Nat) (id : UUID), q.minHeap[i]? = some id →
    ∃ txn, q.txns[id]? = some txn ∧ txn.index = i

/-- The key of a position. -/
def key (q : UnresolvedIntentQueue) (i : Nat) : Lex (Timestamp × Nat) :=
  match q.entry i with
  | none => toLex ({}, 0)
  | some txn => toLex (txn.timestamp, txn.txnID.toNat)

structure Wf (q : UnresolvedIntentQueue) : Prop extends Placed q where
  ordered : Heap.Ordered q.key q.minHeap.length

/-! ## Swaps -/

theorem getElem?_modify {m : Std.ExtTreeMap UUID UnresolvedTxn} {k id : UUID}
    {f : UnresolvedTxn → UnresolvedTxn} :
    (m.modify k f)[id]? = if k = id then m[id]?.map f else m[id]? := by
  rw [Std.ExtTreeMap.getElem?_modify]
  by_cases h : k = id
  · subst h
    simp
  · simp [h]

theorem getElem?_insert (m : Std.ExtTreeMap UUID UnresolvedTxn) (k : UUID) (t : UnresolvedTxn)
    (id : UUID) : (m.insert k t)[id]? = if id = k then some t else m[id]? := by
  rw [Std.ExtTreeMap.getElem?_insert]
  by_cases h : k = id
  · subst h
    simp
  · simp [h, Ne.symm h]

/-- A queue whose positions are permuted. -/
structure Permuted (π : Equiv.Perm Nat) (q q' : UnresolvedIntentQueue) : Prop where
  minHeap : ∀ k, q'.minHeap[k]? = q.minHeap[π k]?
  txns : ∀ id : UUID, q'.txns[id]? = q.txns[id]?.map fun t => { t with index := π.symm t.index }

theorem Placed.permuted {π : Equiv.Perm Nat} (h : q.Placed)
    (hp : Permuted π q q') : q'.Placed ∧ q'.view = q.view ∧ q'.key = q.key ∘ π := by
  refine ⟨⟨fun id txn hid => ?_, fun i id hi => ?_⟩, ?_, ?_⟩
  · rw [hp.txns] at hid
    obtain ⟨t, ht, rfl⟩ := map_eq_some_iff.mp hid
    obtain ⟨hlisted, hsame⟩ := h.listed id t ht
    refine ⟨?_, hsame⟩
    rw [hp.minHeap]
    dsimp only
    rw [Equiv.apply_symm_apply]
    exact hlisted
  · rw [hp.minHeap] at hi
    obtain ⟨t, ht, hidx⟩ := h.tracked _ id hi
    refine ⟨_, by rw [hp.txns, ht]; rfl, ?_⟩
    dsimp only
    rw [hidx, Equiv.symm_apply_apply]
  · funext id
    unfold view
    rw [hp.txns]
    cases q.txns[id]? <;> rfl
  · funext k
    show q'.key k = q.key (π k)
    unfold key entry
    rw [hp.minHeap]
    cases q.minHeap[π k]? with
    | none => rfl
    | some id =>
      dsimp only [bind_some]
      rw [hp.txns]
      cases q.txns[id]? <;> rfl

/-- Two positions of the heap hold different transactions. -/
theorem Placed.inj (h : q.Placed) (hi : q.minHeap[i]? = some id) (hj : q.minHeap[j]? = some id) :
    i = j := by
  obtain ⟨t, ht, rfl⟩ := h.tracked i id hi
  obtain ⟨t', ht', rfl⟩ := h.tracked j id hj
  rw [ht] at ht'
  cases ht'
  rfl

theorem Placed.swap (h : q.Placed) (hi : i < q.minHeap.length) (hj : j < q.minHeap.length)
    (hij : i ≠ j) : Permuted (Equiv.swap i j) q (q.swap i j) ∧
      (q.swap i j).minHeap.length = q.minHeap.length ∧
      (q.swap i j).allowNegRefCount = q.allowNegRefCount := by
  have ha : q.minHeap[i]? = some q.minHeap[i] := getElem?_eq_getElem hi
  have hb : q.minHeap[j]? = some q.minHeap[j] := getElem?_eq_getElem hj
  have hne : q.minHeap[i] ≠ q.minHeap[j] := fun heq => hij (h.inj ha (heq ▸ hb))
  have hswap : q.swap i j =
      { q with
        minHeap := (q.minHeap.set i q.minHeap[j]).set j q.minHeap[i]
        txns := (q.txns.modify q.minHeap[j] fun t => { t with index := i }).modify q.minHeap[i]
          fun t => { t with index := j } } := by
    unfold UnresolvedIntentQueue.swap
    rw [ha, hb]
  rw [hswap]
  refine ⟨⟨fun k => ?_, fun id => ?_⟩, by simp, rfl⟩
  · dsimp only
    rw [getElem?_set, getElem?_set, length_set]
    by_cases hkj : j = k
    · subst hkj
      rw [if_pos rfl, if_pos hj, Equiv.swap_apply_right]
      exact ha.symm
    · rw [if_neg hkj]
      by_cases hki : i = k
      · subst hki
        rw [if_pos rfl, if_pos hi, Equiv.swap_apply_left]
        exact hb.symm
      · rw [if_neg hki, Equiv.swap_apply_of_ne_of_ne (Ne.symm hki) (Ne.symm hkj)]
  · dsimp only
    rw [Equiv.symm_swap, getElem?_modify, getElem?_modify]
    cases hid : q.txns[id]? with
    | none => simp
    | some t =>
      obtain ⟨hl, -⟩ := h.listed id t hid
      by_cases h1 : q.minHeap[i] = id
      · have hti : t.index = i := h.inj hl (h1 ▸ ha)
        have h2 : ¬ q.minHeap[j] = id := fun h2 => hne (h1.trans h2.symm)
        simp [h1, h2, hti]
      · have hti : t.index ≠ i := by
          rintro rfl
          rw [ha] at hl
          exact h1 (some.inj hl)
        by_cases h2 : q.minHeap[j] = id
        · have htj : t.index = j := h.inj hl (h2 ▸ hb)
          simp [h1, h2, htj]
        · have htj : t.index ≠ j := by
            rintro rfl
            rw [hb] at hl
            exact h2 (some.inj hl)
          simp [h1, h2, Equiv.swap_apply_of_ne_of_ne hti htj]

/-- What the heap routines keep within the first `n` positions. -/
structure Kept (q₀ : UnresolvedIntentQueue) (n : Nat) (q : UnresolvedIntentQueue) : Prop
    extends Placed q where
  length : q.minHeap.length = q₀.minHeap.length
  view : q.view = q₀.view
  last : q.minHeap[n]? = q₀.minHeap[n]?
  allowNegRefCount : q.allowNegRefCount = q₀.allowNegRefCount

theorem Kept.swap {q₀ : UnresolvedIntentQueue} (h : Kept q₀ n q)
    (hn : n ≤ q₀.minHeap.length) (hi : i < n) (hj : j < n) (hij : i ≠ j) :
    Kept q₀ n (q.swap i j) := by
  obtain ⟨hp, hlen, hallow⟩ := h.toPlaced.swap (i := i) (j := j)
    (by rw [h.length]; omega) (by rw [h.length]; omega) hij
  obtain ⟨hplaced, hview, -⟩ := h.toPlaced.permuted hp
  refine ⟨hplaced, hlen.trans h.length, hview.trans h.view, ?_,
    hallow.trans h.allowNegRefCount⟩
  rw [hp.minHeap, Equiv.swap_apply_of_ne_of_ne (by omega) (by omega)]
  exact h.last

theorem Placed.exists_entry (h : q.Placed) (hi : i < q.minHeap.length) :
    ∃ txn, q.entry i = some txn ∧ txn.index = i ∧ q.txns[txn.txnID]? = some txn := by
  obtain ⟨txn, htxn, hidx⟩ := h.tracked i _ (getElem?_eq_getElem hi)
  refine ⟨txn, ?_, hidx, ?_⟩
  · unfold entry
    rw [getElem?_eq_getElem hi]
    exact htxn
  · rw [(h.listed _ txn htxn).2]
    exact htxn

/-- `less` compares keys. -/
theorem keyed {q₀ : UnresolvedIntentQueue} (hn : n ≤ q₀.minHeap.length) :
    Heap.Keyed heap key (Kept q₀ n) n where
  less_iff := by
    intro q i j h hi hj
    obtain ⟨a, ha, -⟩ := h.toPlaced.exists_entry (i := i) (by rw [h.length]; omega)
    obtain ⟨b, hb, -⟩ := h.toPlaced.exists_entry (i := j) (by rw [h.length]; omega)
    show q.less i j = true ↔ q.key i < q.key j
    unfold less key
    rw [ha, hb]
    dsimp only
    rw [Prod.Lex.toLex_lt_toLex]
    by_cases heq : a.timestamp = b.timestamp
    · simp [heq, BitVec.lt_def]
    · simp [heq]
  good_swap := fun h hi hj hij => h.swap hn hi hj hij
  key_swap := by
    intro q i j h hi hj hij
    obtain ⟨hp, -⟩ := h.toPlaced.swap (i := i) (j := j) (by rw [h.length]; omega)
      (by rw [h.length]; omega) hij
    exact (h.toPlaced.permuted hp).2.2

/-- Closing a gap within the first `n` positions. -/
theorem Placed.fixFirst (h : q.Placed) (hn : n ≤ q.minHeap.length) (hi : i < n)
    (hgap : Heap.Gap q.key n i) :
    Kept q n (Heap.fixFirst heap n q i) ∧ Heap.Ordered (Heap.fixFirst heap n q i).key n := by
  have hkept : Kept q n q := ⟨h, rfl, rfl, rfl, rfl⟩
  exact ⟨Heap.fixFirst_induct (fun q' i j h' hi hj hij => h'.swap hn hi hj hij) hi hkept,
    Heap.fixFirst_ordered (keyed hn) hi hkept hgap⟩

/-! ## The oldest transaction -/

/-- The key of a transaction that is tracked. -/
theorem Placed.key_eq (h : q.Placed) (hid : q.txns[id]? = some txn) :
    q.key txn.index = toLex (txn.timestamp, txn.txnID.toNat) ∧ txn.index < q.minHeap.length := by
  obtain ⟨hl, -⟩ := h.listed id txn hid
  refine ⟨?_, (List.getElem?_eq_some_iff.mp hl).1⟩
  unfold key entry
  rw [hl]
  dsimp only [bind_some]
  rw [hid]

/-- The top of the heap is the oldest transaction. -/
theorem Wf.oldest_isOldest (h : q.Wf) : IsOldest q.view (q.oldest.map (·.timestamp)) := by
  by_cases hlen : 0 < q.minHeap.length
  · obtain ⟨top, htop, -, hin⟩ := h.toPlaced.exists_entry hlen
    unfold oldest
    rw [htop]
    refine ⟨⟨top.txnID, top.refCount, ?_⟩, fun id t c hid => ?_⟩
    · exact view_of_some hin
    · obtain ⟨txn, htxn, heq⟩ := map_eq_some_iff.mp hid
      cases heq
      obtain ⟨hkey, hlt⟩ := h.toPlaced.key_eq htxn
      have hle := h.ordered.top_le _ hlt
      rw [hkey] at hle
      unfold key at hle
      rw [htop] at hle
      rcases Prod.Lex.toLex_le_toLex.mp hle with hlt | ⟨heq, -⟩
      · exact hlt.le
      · exact heq.le
  · have hnil : q.minHeap = [] := eq_nil_of_length_eq_zero (by omega)
    unfold oldest entry
    rw [hnil]
    intro id
    cases hid : q.txns[id]? with
    | none => exact view_of_none hid
    | some txn =>
      obtain ⟨hl, -⟩ := h.listed id txn hid
      rw [hnil] at hl
      cases hl

/-- A transaction that is not at the top is not older than the one that is. -/
theorem Wf.top_of_index_ne (h : q.Wf) (hid : q.txns[id]? = some txn) (hne : txn.index ≠ 0) :
    ∃ id' t c, id' ≠ id ∧ q.view id' = some (t, c) ∧ q.oldest.map (·.timestamp) = some t := by
  obtain ⟨hkey, hlt⟩ := h.toPlaced.key_eq hid
  obtain ⟨top, htop, hidx, hin⟩ := h.toPlaced.exists_entry (i := 0) (by omega)
  refine ⟨top.txnID, top.timestamp, top.refCount, fun heq => hne ?_, ?_, ?_⟩
  · rw [heq, hid] at hin
    cases hin
    exact hidx
  · exact view_of_some hin
  · unfold oldest
    rw [htop]
    rfl

/-! ## Adding, moving and dropping -/

theorem Wf.push (h : q.Wf) (txn : UnresolvedTxn) (hnew : q.txns[txn.txnID]? = none) :
    (Heap.push heap (add txn) q).Wf ∧
      (Heap.push heap (add txn) q).view =
        update q.view txn.txnID (some (txn.timestamp, txn.refCount)) ∧
      (Heap.push heap (add txn) q).allowNegRefCount = q.allowNegRefCount := by
  have hget : ∀ id : UUID, (add txn q).txns[id]? =
      if id = txn.txnID then some { txn with index := q.minHeap.length } else q.txns[id]? :=
    getElem?_insert _ _ _
  have hheap : (add txn q).minHeap = q.minHeap ++ [txn.txnID] := rfl
  have hlen : (add txn q).minHeap.length = q.minHeap.length + 1 := by
    rw [hheap, length_append, length_singleton]
  have hne : ∀ (i : Nat) (id : UUID), q.minHeap[i]? = some id → id ≠ txn.txnID := by
    rintro i _ hi rfl
    obtain ⟨t, ht, -⟩ := h.tracked i _ hi
    rw [hnew] at ht
    cases ht
  have hplaced : (add txn q).Placed := by
    refine ⟨fun id t hid => ?_, fun i id hi => ?_⟩
    · rw [hget] at hid
      split_ifs at hid with heq
      · cases hid
        rw [hheap]
        simp [heq]
      · obtain ⟨hl, hsame⟩ := h.listed id t hid
        refine ⟨?_, hsame⟩
        rw [hheap, getElem?_append_left (List.getElem?_eq_some_iff.mp hl).1]
        exact hl
    · rw [hheap] at hi
      by_cases hlt : i < q.minHeap.length
      · rw [getElem?_append_left hlt] at hi
        obtain ⟨t, ht, hidx⟩ := h.tracked i id hi
        refine ⟨t, ?_, hidx⟩
        rw [hget, if_neg (hne i id hi)]
        exact ht
      · rw [getElem?_append_right (by omega)] at hi
        obtain ⟨hz, hi⟩ := List.getElem?_eq_some_iff.mp hi
        have hz' : i = q.minHeap.length := by
          rw [length_singleton] at hz
          omega
        subst hz'
        refine ⟨{ txn with index := q.minHeap.length }, ?_, rfl⟩
        rw [hget, if_pos]
        simpa using hi.symm
  have hkey : ∀ k < q.minHeap.length, (add txn q).key k = q.key k := by
    intro k hk
    unfold key entry
    rw [hheap, getElem?_append_left hk, getElem?_eq_getElem hk]
    dsimp only [bind_some]
    rw [hget, if_neg (hne k _ (getElem?_eq_getElem hk))]
  have hgap : Heap.Gap (add txn q).key (q.minHeap.length + 1) q.minHeap.length := by
    refine ⟨fun k hk hpos hne' hp => ?_, fun k hk hpos hp => by omega⟩
    rw [hkey k (by omega), hkey _ (by omega)]
    exact h.ordered k (by omega) hpos
  have hview : (add txn q).view =
      update q.view txn.txnID (some (txn.timestamp, txn.refCount)) :=
    view_update hget
  have hpush : Heap.push heap (add txn) q = Heap.up heap q.minHeap.length (add txn q)
      q.minHeap.length := by
    unfold Heap.push
    show Heap.up heap ((add txn q).minHeap.length - 1) (add txn q) _ = _
    rw [show heap.len (add txn q) - 1 = q.minHeap.length by
      show (add txn q).minHeap.length - 1 = _
      rw [hlen]
      rfl, hlen]
    rfl
  have hkept : Kept (add txn q) (q.minHeap.length + 1) (add txn q) := ⟨hplaced, rfl, rfl, rfl, rfl⟩
  have hn : q.minHeap.length + 1 ≤ (add txn q).minHeap.length := hlen.ge
  rw [hpush]
  have hres : Kept (add txn q) (q.minHeap.length + 1)
      (Heap.up heap q.minHeap.length (add txn q) q.minHeap.length) :=
    Heap.up_induct (fun q' i j h' hi hj hij => h'.swap hn hi hj hij) (Nat.lt_succ_self _) hkept
  have hord := Heap.up_ordered (keyed hn) le_rfl (Nat.lt_succ_self _) hkept hgap
    fun k hk hpos hp => by omega
  refine ⟨⟨hres.toPlaced, ?_⟩, hres.view.trans hview, hres.allowNegRefCount⟩
  rw [hres.length, hlen]
  exact hord

/-- A transaction with a new timestamp and reference count, before the heap is fixed. -/
theorem Wf.set (h : q.Wf) (hid : q.txns[id]? = some txn) (ts : Timestamp) (c : Int) :
    let q' : UnresolvedIntentQueue :=
      { q with txns := q.txns.insert id { txn with timestamp := ts, refCount := c } }
    q'.Placed ∧ q'.view = update q.view id (some (ts, c)) ∧
      Heap.Gap q'.key q.minHeap.length txn.index ∧
      (ts = txn.timestamp → q'.key = q.key) := by
  intro q'
  have hget : ∀ id' : UUID, q'.txns[id']? =
      if id' = id then some { txn with timestamp := ts, refCount := c } else q.txns[id']? :=
    getElem?_insert _ _ _
  obtain ⟨hl, hsame⟩ := h.listed id txn hid
  have hlt : txn.index < q.minHeap.length := (List.getElem?_eq_some_iff.mp hl).1
  have hkey : ∀ k, k ≠ txn.index → q'.key k = q.key k := by
    intro k hk
    unfold key entry
    cases hk' : q.minHeap[k]? with
    | none => rfl
    | some id' =>
      dsimp only [bind_some]
      rw [hget, if_neg]
      rintro rfl
      exact hk (h.toPlaced.inj hk' hl)
  refine ⟨⟨fun id' t ht => ?_, fun i id' hi => ?_⟩, ?_, ?_, fun hts => ?_⟩
  · rw [hget] at ht
    split_ifs at ht with heq
    · cases ht
      rw [heq]
      exact ⟨hl, hsame⟩
    · exact h.listed id' t ht
  · obtain ⟨t, ht, hidx⟩ := h.tracked i id' hi
    rw [hget]
    split_ifs with heq
    · subst heq
      rw [hid] at ht
      cases ht
      exact ⟨_, rfl, hidx⟩
    · exact ⟨t, ht, hidx⟩
  · exact view_update hget
  · exact h.ordered.gap hlt fun k _ => hkey k
  · funext k
    by_cases hk : k = txn.index
    · subst hk
      unfold key entry
      rw [hl]
      dsimp only [bind_some]
      rw [hget, if_pos rfl, hid, hts]
    · exact hkey k hk

theorem Wf.fix (h : q.Wf) (hid : q.txns[id]? = some txn) (ts : Timestamp) (c : Int) :
    let q' := Heap.fix heap
      { q with txns := q.txns.insert id { txn with timestamp := ts, refCount := c } } txn.index
    q'.Wf ∧ q'.view = update q.view id (some (ts, c)) ∧
      q'.allowNegRefCount = q.allowNegRefCount := by
  obtain ⟨hplaced, hview, hgap, -⟩ := h.set hid ts c
  obtain ⟨hl, -⟩ := h.listed id txn hid
  have hlt : txn.index < q.minHeap.length := (List.getElem?_eq_some_iff.mp hl).1
  obtain ⟨hkept, hord⟩ := hplaced.fixFirst le_rfl hlt hgap
  exact ⟨⟨hkept.toPlaced, hord.mono hkept.length.le⟩, hkept.view.trans hview,
    hkept.allowNegRefCount⟩

/-- A queue whose last transaction is dropped. -/
theorem Placed.dropLast (h : q.Placed) (hlen : q.minHeap.length = n + 1)
    (hlast : q.minHeap[n]? = some id) (hord : Heap.Ordered q.key n) :
    let q' : UnresolvedIntentQueue := { q.pop with txns := q.pop.txns.erase id }
    q'.Wf ∧ q'.view = update q.view id none := by
  intro q'
  have hheap : ∀ k, q'.minHeap[k]? = if k < n then q.minHeap[k]? else none := by
    intro k
    show q.minHeap.dropLast[k]? = _
    rw [getElem?_dropLast, hlen]
    rfl
  have hget : ∀ id' : UUID, q'.txns[id']? = if id' = id then none else q.txns[id']? := by
    intro id'
    show (q.txns.erase id)[id']? = _
    rw [Std.ExtTreeMap.getElem?_erase]
    by_cases heq : id = id'
    · subst heq
      simp
    · simp [heq, Ne.symm heq]
  have hlen' : q'.minHeap.length = n := by
    show q.minHeap.dropLast.length = n
    rw [length_dropLast, hlen]
    rfl
  have hne : ∀ (k : Nat) (id' : UUID), k < n → q.minHeap[k]? = some id' → id' ≠ id := by
    rintro k _ hk hid rfl
    have := h.inj hid hlast
    omega
  refine ⟨⟨⟨fun id' t ht => ?_, fun i id' hi => ?_⟩, ?_⟩, ?_⟩
  · rw [hget] at ht
    split_ifs at ht with heq
    obtain ⟨hl, hsame⟩ := h.listed id' t ht
    refine ⟨?_, hsame⟩
    have hlt : t.index < n := by
      have hlt := (List.getElem?_eq_some_iff.mp hl).1
      rcases Nat.lt_or_ge t.index n with hlt' | hge
      · exact hlt'
      · obtain rfl : t.index = n := by omega
        rw [hlast] at hl
        exact absurd (some.inj hl).symm heq
    rw [hheap, if_pos hlt]
    exact hl
  · rw [hheap] at hi
    split_ifs at hi with hlt
    obtain ⟨t, ht, hidx⟩ := h.tracked i id' hi
    refine ⟨t, ?_, hidx⟩
    rw [hget, if_neg (hne i id' hlt hi)]
    exact ht
  · rw [hlen']
    refine hord.congr fun k hk => ?_
    unfold key entry
    rw [hheap, if_pos hk]
    cases hid : q.minHeap[k]? with
    | none => rfl
    | some id' =>
      dsimp only [bind_some]
      rw [hget, if_neg (hne k id' hk hid)]
  · exact view_update hget

theorem Wf.drop (h : q.Wf) (hid : q.txns[id]? = some txn) (txn' : UnresolvedTxn)
    (hidx : txn'.index = txn.index) (hsame : txn'.txnID = txn.txnID) :
    (q.drop txn').Wf ∧ (q.drop txn').view = update q.view id none ∧
      (q.drop txn').allowNegRefCount = q.allowNegRefCount := by
  obtain ⟨hl, hid'⟩ := h.listed id txn hid
  have hlt : txn.index < q.minHeap.length := (List.getElem?_eq_some_iff.mp hl).1
  obtain ⟨n, hn⟩ : ∃ n, q.minHeap.length = n + 1 := ⟨q.minHeap.length - 1, by omega⟩
  unfold UnresolvedIntentQueue.drop Heap.remove
  rw [hidx, hsame, hid', show heap.len q - 1 = n by show q.minHeap.length - 1 = n; omega]
  dsimp only
  by_cases hlast : n = txn.index
  · rw [if_neg (not_not_intro hlast)]
    subst hlast
    obtain ⟨hwf, hview⟩ := h.toPlaced.dropLast hn hl (h.ordered.mono (by omega))
    exact ⟨hwf, hview, rfl⟩
  · rw [if_pos hlast]
    obtain ⟨hp, hlen, hallow⟩ := h.toPlaced.swap (i := txn.index) (j := n) hlt (by omega)
      (Ne.symm hlast)
    obtain ⟨hplaced, hview, hkey⟩ := h.toPlaced.permuted hp
    have hgap : Heap.Gap (q.swap txn.index n).key n txn.index := by
      refine (h.ordered.mono (show n ≤ _ by omega)).gap (by omega) fun k hk hne => ?_
      rw [hkey, comp_apply, Equiv.swap_apply_of_ne_of_ne hne (by omega)]
    obtain ⟨hkept, hord⟩ := hplaced.fixFirst (by omega) (show txn.index < n by omega) hgap
    have hend : (Heap.fixFirst heap n (q.swap txn.index n) txn.index).minHeap[n]? = some id := by
      rw [hkept.last, hp.minHeap, Equiv.swap_apply_right]
      exact hl
    obtain ⟨hwf, hview'⟩ := hkept.toPlaced.dropLast ((hkept.length.trans hlen).trans hn) hend hord
    refine ⟨hwf, hview'.trans ?_, ?_⟩
    · rw [hkept.view, hview]
    · exact hkept.allowNegRefCount.trans hallow

/-! ## What the operations return -/

/-- The oldest timestamp. -/
def oldestTS (q : UnresolvedIntentQueue) : Option Timestamp := q.oldest.map (·.timestamp)

/-- When a transaction that is not at the top is dropped or moves up, the top stays. -/
theorem Wf.oldestTS_eq (h : q.Wf) (h' : q'.Wf)
    (hid : q.txns[id]? = some txn) (hne : txn.index ≠ 0) {o : Option (Timestamp × Int)}
    (hview : q'.view = update q.view id o)
    (ho : ∀ t c, o = some (t, c) → txn.timestamp ≤ t) :
    q'.oldestTS = q.oldestTS := by
  obtain ⟨id', t, c, hid', hv, htop⟩ := h.top_of_index_ne hid hne
  have hold := h.oldest_isOldest
  rw [htop] at hold
  have hnew : IsOldest q'.view (some t) := by
    rw [hview]
    refine ⟨⟨id', c, ?_⟩, fun id₁ t₁ c₁ h₁ => ?_⟩
    · rw [update_of_ne hid']
      exact hv
    · by_cases heq : id₁ = id
      · subst heq
        rw [update_self] at h₁
        exact (hold.2 id₁ txn.timestamp txn.refCount (view_of_some hid)).trans (ho t₁ c₁ h₁)
      · rw [update_of_ne heq] at h₁
        exact hold.2 id₁ t₁ c₁ h₁
  unfold oldestTS
  rw [htop]
  exact h'.oldest_isOldest.unique hnew

/-- What an update does to a queue, and what it returns. -/
structure Updated (q : UnresolvedIntentQueue) (id : UUID) (v : Option (Timestamp × Int))
    (r : UnresolvedIntentQueue × Bool) : Prop where
  wf : r.1.Wf
  view : r.1.view = Function.update q.view id v
  allowNegRefCount : r.1.allowNegRefCount = q.allowNegRefCount
  same : r.2 = false → r.1.oldestTS = q.oldestTS ∨ q.view id = none

theorem Wf.updated_refl (h : q.Wf) (id : UUID) {b : Bool} : Updated q id (q.view id) (q, b) :=
  ⟨h, (update_eq_self id q.view).symm, rfl, fun _ => .inl rfl⟩

/-- What `updateTxn` does to a transaction: an unknown one is added unless there is
nothing to count; a known one is counted, dropped at zero, and moved up otherwise. -/
def bump (allowNeg : Bool) (ts : Timestamp) (delta : Int) :
    Option (Timestamp × Int) → Option (Timestamp × Int)
  | none => if delta = 0 ∨ delta < 0 ∧ ¬ allowNeg then none else some (ts, delta)
  | some (t, c) => if c + delta = 0 then none else some (max t ts, c + delta)

theorem Wf.updateTxn (h : q.Wf) (id : UUID) (key : List UInt8) (level : Level)
    (minTS ts : Timestamp) {delta : Int} (hd : delta = -1 ∨ delta = 0 ∨ delta = 1) :
    ∃ r, q.updateTxn id key level minTS ts delta = .ok r ∧
      Updated q id (bump q.allowNegRefCount ts delta (q.view id)) r := by
  unfold UnresolvedIntentQueue.updateTxn bump
  cases hid : q.txns[id]? with
  | none =>
    have hv := view_of_none hid
    rw [hv]
    dsimp only
    split_ifs with hc
    · refine ⟨_, rfl, ?_⟩
      rw [← hv]
      exact h.updated_refl id
    · obtain ⟨hwf, hview, hallow⟩ := h.push ⟨id, key, level, minTS, ts, delta, 0⟩ hid
      exact ⟨_, rfl, hwf, hview, hallow, fun _ => .inr hv⟩
  | some txn =>
    have hv := view_of_some hid
    rw [hv]
    dsimp only
    rw [if_neg (show ¬ (delta < -1 ∨ delta > 1) by omega)]
    by_cases hz : txn.refCount + delta = 0
    · rw [if_pos hz, if_pos hz]
      obtain ⟨hwf, hview, hallow⟩ := h.drop hid
        { txn with refCount := txn.refCount + delta } rfl rfl
      refine ⟨_, rfl, hwf, hview, hallow, fun hm => .inl ?_⟩
      refine h.oldestTS_eq hwf hid (of_decide_eq_false hm) hview fun t c ho => ?_
      cases ho
    · rw [if_neg hz, if_neg hz]
      by_cases hlt : txn.timestamp < ts
      · rw [if_pos hlt, max_eq_right hlt.le]
        have hins : (q.txns.insert id { txn with refCount := txn.refCount + delta }).insert id
            { txn with timestamp := ts, refCount := txn.refCount + delta } =
            q.txns.insert id { txn with timestamp := ts, refCount := txn.refCount + delta } := by
          refine Std.ExtTreeMap.ext_getElem? fun id' => ?_
          simp only [Std.ExtTreeMap.getElem?_insert]
          split_ifs <;> rfl
        rw [hins]
        obtain ⟨hwf, hview, hallow⟩ := h.fix hid ts (txn.refCount + delta)
        refine ⟨_, rfl, hwf, hview, hallow, fun hm => .inl ?_⟩
        refine h.oldestTS_eq hwf hid (of_decide_eq_false hm) hview fun t c ho => ?_
        cases ho
        exact hlt.le
      · rw [if_neg hlt, max_eq_left (not_lt.mp hlt)]
        obtain ⟨hplaced, hview, -, hkey⟩ := h.set hid txn.timestamp (txn.refCount + delta)
        have hwf : UnresolvedIntentQueue.Wf { q with
            txns := q.txns.insert id { txn with refCount := txn.refCount + delta } } := by
          refine ⟨hplaced, ?_⟩
          have hord := h.ordered
          rw [← hkey rfl] at hord
          exact hord
        refine ⟨_, rfl, hwf, hview, rfl, fun _ => .inl ?_⟩
        refine hwf.oldest_isOldest.unique (h.oldest_isOldest.congr fun id' => ?_)
        rw [hview]
        by_cases heq : id' = id
        · subst heq
          rw [update_self, hv]
          rfl
        · rw [update_of_ne heq]

theorem Wf.del (h : q.Wf) (id : UUID) : Updated q id none (q.del id) := by
  unfold UnresolvedIntentQueue.del
  cases hid : q.txns[id]? with
  | none =>
    have hv := view_of_none hid
    have hrefl := h.updated_refl id (b := false)
    rw [hv] at hrefl
    exact hrefl
  | some txn =>
    obtain ⟨hwf, hview, hallow⟩ := h.drop hid txn rfl rfl
    refine ⟨hwf, hview, hallow, fun hm => .inl ?_⟩
    refine h.oldestTS_eq hwf hid (of_decide_eq_false hm) hview fun t c ho => ?_
    cases ho

theorem wf_empty : ({} : UnresolvedIntentQueue).Wf := by
  refine ⟨⟨fun id txn hid => ?_, fun i id hi => ?_⟩, fun k hk => ?_⟩
  · rw [Std.ExtTreeMap.getElem?_empty] at hid
    cases hid
  · cases hi
  · exact absurd hk (Nat.not_lt_zero k)

/-- `assertOnlyPositiveRefCounts` reads the reference counts of the view. -/
theorem assertOnlyPositiveRefCounts_ok (h : ∀ id t c, q.view id = some (t, c) → 0 < c) :
    q.assertOnlyPositiveRefCounts = .ok () := by
  unfold assertOnlyPositiveRefCounts
  rw [if_neg]
  · rfl
  rw [List.any_eq_true]
  rintro ⟨e, he, hle⟩
  have hin := Std.ExtTreeMap.mem_toList_iff_getElem?_eq_some.mp he
  have hpos := h e.1 e.2.timestamp e.2.refCount (view_of_some hin)
  have := of_decide_eq_true hle
  omega

end UnresolvedIntentQueue

end Cockroach.Rangefeed
