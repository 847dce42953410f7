import Cockroach.Raft.Quorum

/-!
# Commit indexes, slot by slot (`quorum/majority.go`, `quorum/joint.go`)

`MajorityConfig.committedIndex` says what the source computes once the acked indexes are
sorted. Here the slots are filled as the source does it: the voters come in whatever order
Go ranges over the map, a voter that has acked an index takes the rightmost free slot, and
the slots of the others stay zero. The result is the same in every order
(`committedIndexIn_eq`), and it is exactly the largest index that a vote on "acked at least
this much" wins (`le_committedIndex_iff_voteWon`).
-/

namespace Cockroach.Raft

open Lib List MajorityConfig

/-- The ids in some order, each once: what ranging over the map of `c` gives. -/
structure Enumerates (order : List PeerID) (c : MajorityConfig) : Prop where
  nodup : order.Nodup
  toFinset : order.toFinset = c

namespace Enumerates

variable {order : List PeerID} {c : MajorityConfig}

theorem length_eq (h : Enumerates order c) : order.length = c.card := by
  rw [← h.toFinset, toFinset_card_of_nodup h.nodup]

theorem perm (h : Enumerates order c) : order.Perm (ascending c) := by
  refine (perm_ext_iff_of_nodup h.nodup (nodup_ascending c)).mpr fun id => ?_
  rw [mem_ascending, ← h.toFinset, mem_toFinset]

end Enumerates

namespace MajorityConfig

/-- The loop that fills the slots; `free` is the number of slots left of the last filled
one. -/
def fillSlots (acked : PeerID → Option Nat) : List PeerID → Nat → List Nat → List Nat
  | [], _, srt => srt
  | id :: ids, free, srt =>
    match acked id with
    | some idx => fillSlots acked ids (free - 1) (srt.set (free - 1) idx)
    | none => fillSlots acked ids free srt

/-- `MajorityConfig.CommittedIndex`, for an order of the voters. The slots start as zeros,
on the stack or not. -/
def committedIndexIn (order : List PeerID) (acked : PeerID → Option Nat) : Nat :=
  let n := order.length
  if n = 0 then maxIndex
  else
    let srt := (fillSlots acked order n (List.replicate n 0)).insertionSort (· ≤ ·)
    srt.getD (n - (n / 2 + 1)) 0

/-- Filled from the right, the slots are zeros and then the acked indexes. -/
theorem fillSlots_eq {acked : PeerID → Option Nat} {ids : List PeerID} {free : Nat}
    {filled : List Nat} (h : ids.length ≤ free) :
    fillSlots acked ids free (replicate free 0 ++ filled) =
      replicate (free - (ids.filterMap acked).length) 0 ++
        ((ids.filterMap acked).reverse ++ filled) := by
  induction ids generalizing free filled with
  | nil => simp [fillSlots]
  | cons id ids ih =>
    rw [length_cons] at h
    cases hid : acked id with
    | none =>
      simp only [fillSlots, hid, filterMap_cons_none]
      exact ih (by omega)
    | some idx =>
      obtain ⟨k, rfl⟩ : ∃ k, free = k + 1 := ⟨free - 1, by omega⟩
      have hset : (replicate (k + 1) 0 ++ filled).set k idx = replicate k 0 ++ idx :: filled := by
        rw [replicate_succ', append_assoc,
          set_append_right _ _ (by simp), length_replicate, Nat.sub_self]
        rfl
      simp only [fillSlots, hid, Nat.add_sub_cancel, hset]
      rw [ih (by omega), filterMap_cons_some hid, length_cons,
        reverse_cons, append_assoc, singleton_append,
        Nat.add_sub_add_right]

/-- Up to their order the slots are the acked indexes, zero for a voter without one. -/
theorem fillSlots_perm (acked : PeerID → Option Nat) (ids : List PeerID) :
    (fillSlots acked ids ids.length (replicate ids.length 0)).Perm
      (ids.map fun id => (acked id).getD 0) := by
  have hfill : fillSlots acked ids ids.length (replicate ids.length 0 ++ []) = _ :=
    fillSlots_eq (le_refl ids.length)
  rw [append_nil, append_nil] at hfill
  rw [hfill]
  clear hfill
  refine ((Perm.refl _).append (reverse_perm _)).trans ?_
  induction ids with
  | nil => exact .refl _
  | cons id ids ih =>
    have hle := length_filterMap_le acked ids
    cases hid : acked id with
    | none =>
      rw [filterMap_cons_none hid, map_cons, hid, length_cons,
        Nat.succ_sub hle, replicate_succ, cons_append]
      exact ih.cons 0
    | some idx =>
      rw [filterMap_cons_some hid, map_cons, hid, length_cons, length_cons, Nat.add_sub_add_right]
      exact perm_middle.trans (ih.cons idx)

/-- The order in which the voters come does not matter. -/
theorem committedIndexIn_eq {order : List PeerID} {c : MajorityConfig}
    (h : Enumerates order c) (acked : PeerID → Option Nat) :
    committedIndexIn order acked = c.committedIndex acked := by
  unfold committedIndexIn committedIndex
  have hperm : (fillSlots acked order order.length (replicate order.length 0)).Perm
      ((slice c).map fun id => (acked id).getD 0) :=
    (fillSlots_perm acked order).trans (h.perm.map _)
  have hsort : (fillSlots acked order order.length
        (replicate order.length 0)).insertionSort (· ≤ ·) =
      ((slice c).map fun id => (acked id).getD 0).insertionSort (· ≤ ·) :=
    Perm.eq_of_pairwise' (pairwise_insertionSort (· ≤ ·) _) (pairwise_insertionSort (· ≤ ·) _)
      ((perm_insertionSort _ _).trans (hperm.trans (perm_insertionSort _ _).symm))
  dsimp only
  rw [hsort, h.length_eq]

end MajorityConfig

/-! ## The commit index is a vote -/

/-- The votes on index `i`: who has acked anything votes on whether it acked `i`. -/
def ackVotes (acked : PeerID → Option Nat) (i : Nat) (id : PeerID) : Option Bool :=
  (acked id).map fun a => decide (i ≤ a)

theorem yesVotes_ackVotes (c : MajorityConfig) (acked : PeerID → Option Nat) {i : Nat}
    (hi : 1 ≤ i) : yesVotes c (ackVotes acked i) = c.filter fun id => i ≤ (acked id).getD 0 := by
  unfold yesVotes
  refine Finset.filter_congr fun id _ => ?_
  unfold ackVotes
  cases acked id with
  | none => simp; omega
  | some a => simp

theorem MajorityConfig.le_committedIndex_iff_voteWon (c : MajorityConfig)
    (acked : PeerID → Option Nat) {i : Nat} (hi : 1 ≤ i) (hmax : i ≤ maxIndex) :
    i ≤ c.committedIndex acked ↔ c.voteResult (ackVotes acked i) = .won := by
  by_cases hc : c = ∅
  · subst hc
    exact ⟨fun _ => rfl, fun _ => hmax⟩
  · rw [le_committedIndex_iff hc, voteResult_won_iff, yesVotes_ackVotes c acked hi, or_iff_right hc]

/-- More acked indexes, or larger ones, only raise the commit index. -/
theorem MajorityConfig.committedIndex_mono (c : MajorityConfig) {acked acked' : PeerID → Option Nat}
    (h : ∀ id a, acked id = some a → ∃ a' ≥ a, acked' id = some a') :
    c.committedIndex acked ≤ c.committedIndex acked' := by
  by_cases hc : c = ∅
  · subst hc
    exact le_refl _
  · rw [le_committedIndex_iff hc]
    have hle := (le_committedIndex_iff hc acked (c.committedIndex acked)).mp le_rfl
    refine hle.trans (Finset.card_le_card fun id hid => ?_)
    rw [Finset.mem_filter] at hid ⊢
    refine ⟨hid.1, hid.2.trans ?_⟩
    cases hack : acked id with
    | none => exact Nat.zero_le _
    | some a =>
      obtain ⟨a', ha', hack'⟩ := h id a hack
      rw [hack']
      exact ha'

namespace JointConfig

/-- `JointConfig.CommittedIndex`, for an order of the voters of each half. -/
def committedIndexIn (incoming outgoing : List PeerID) (acked : PeerID → Option Nat) : Nat :=
  let idx0 := MajorityConfig.committedIndexIn incoming acked
  let idx1 := MajorityConfig.committedIndexIn outgoing acked
  if idx0 < idx1 then idx0 else idx1

theorem committedIndexIn_eq {c : JointConfig} {incoming outgoing : List PeerID}
    (hin : Enumerates incoming c.incoming) (hout : Enumerates outgoing c.outgoingIDs)
    (acked : PeerID → Option Nat) :
    committedIndexIn incoming outgoing acked = c.committedIndex acked := by
  unfold committedIndexIn committedIndex
  rw [MajorityConfig.committedIndexIn_eq hin, MajorityConfig.committedIndexIn_eq hout]

theorem committedIndex_eq_min (c : JointConfig) (acked : PeerID → Option Nat) :
    c.committedIndex acked =
      min (c.incoming.committedIndex acked) (c.outgoingIDs.committedIndex acked) := by
  unfold committedIndex
  dsimp only
  split_ifs <;> omega

/-- An index is at most the commit index iff the vote on it is won, whatever the order of
the voters; and the commit index grows with the acked indexes. -/
theorem committedIndex_threshold (c : JointConfig) (incoming outgoing : List PeerID)
    (hin : Enumerates incoming c.incoming) (hout : Enumerates outgoing c.outgoingIDs)
    (acked : PeerID → Option Nat) :
    (∀ i, 1 ≤ i → i ≤ maxIndex → (i ≤ committedIndexIn incoming outgoing acked ↔
      c.voteResult (ackVotes acked i) = .won)) ∧
    ∀ acked' : PeerID → Option Nat, (∀ id a, acked id = some a → ∃ a' ≥ a, acked' id = some a') →
      committedIndexIn incoming outgoing acked ≤ committedIndexIn incoming outgoing acked' := by
  refine ⟨fun i hi hmax => ?_, fun acked' h => ?_⟩
  · rw [committedIndexIn_eq hin hout, committedIndex_eq_min, le_min_iff,
      MajorityConfig.le_committedIndex_iff_voteWon _ _ hi hmax,
      MajorityConfig.le_committedIndex_iff_voteWon _ _ hi hmax, JointConfig.voteResult_won_iff]
  · rw [committedIndexIn_eq hin hout, committedIndexIn_eq hin hout, committedIndex_eq_min,
      committedIndex_eq_min]
    exact min_le_min (c.incoming.committedIndex_mono h) (c.outgoingIDs.committedIndex_mono h)

/-- Eight incoming and two outgoing voters, of which one in each half has acked nothing. -/
theorem committedIndex_threshold_eight :
    committedIndexIn [8, 1, 2, 3, 4, 5, 6, 7] [3, 9] (fun id => if id = 9 ∨ id = 8 then none
      else some (10 * id)) = 0 ∧
    committedIndexIn [8, 1, 2, 3, 4, 5, 6, 7] [] (fun id => if id = 8 then none
      else some (10 * id)) = 30 ∧
    (∀ i, 1 ≤ i → i ≤ maxIndex →
      (i ≤ committedIndexIn [8, 1, 2, 3, 4, 5, 6, 7] [] (fun id => if id = 8 then none
        else some (10 * id)) ↔
        JointConfig.voteResult ⟨{1, 2, 3, 4, 5, 6, 7, 8}, none⟩
          (ackVotes (fun id => if id = 8 then none else some (10 * id)) i) = .won)) :=
  ⟨by decide, by decide, (committedIndex_threshold ⟨{1, 2, 3, 4, 5, 6, 7, 8}, none⟩
    [8, 1, 2, 3, 4, 5, 6, 7] [] ⟨by decide, by decide⟩ ⟨by decide, by decide⟩ _).1⟩

end JointConfig

end Cockroach.Raft
