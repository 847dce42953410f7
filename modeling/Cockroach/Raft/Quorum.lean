import Cockroach.Lib.Majority
import Cockroach.Lib.SortedIds
import Cockroach.Raft.Pb

/-!
# Quorums (`pkg/raft/quorum`)

Majority and joint configurations, vote results and commit indexes, and the
configuration record. A Go map used as a set is a `Finset`; the outgoing half
of a joint configuration and the learner sets are options, because the change
code tells the nil map from the empty one.
-/

namespace Cockroach.Raft

open Lib Finset

/-- `quorum.MajorityConfig`. -/
abbrev MajorityConfig := Finset PeerID

/-- `quorum.VoteResult`. -/
inductive VoteResult
  | pending
  | lost
  | won
  deriving DecidableEq, Repr, Inhabited

/-- The index an empty majority reports as committed: `math.MaxUint64`. -/
def maxIndex : Nat := 2 ^ 64 - 1

namespace MajorityConfig

/-- `MajorityConfig.Slice`. -/
def slice (c : MajorityConfig) : List PeerID := ascending c

/-- `MajorityConfig.CommittedIndex`. Voters without an acked index count as
zero; the slots are sorted before use, so their filling order is immaterial. -/
def committedIndex (c : MajorityConfig) (acked : PeerID → Option Nat) : Nat :=
  if c.card = 0 then maxIndex
  else
    let srt := ((slice c).map fun id => (acked id).getD 0).insertionSort (· ≤ ·)
    srt.getD (c.card - (c.card / 2 + 1)) 0

/-- `MajorityConfig.VoteResult`. -/
def voteResult (c : MajorityConfig) (votes : PeerID → Option Bool) : VoteResult :=
  if c.card = 0 then .won
  else
    let votedCnt := (c.filter fun id => votes id = some true).card
    let missing := (c.filter fun id => votes id = none).card
    let q := c.card / 2 + 1
    if votedCnt ≥ q then .won
    else if votedCnt + missing ≥ q then .pending
    else .lost

end MajorityConfig

/-- `quorum.JointConfig`: `incoming` is `c[0]` and `outgoing` is `c[1]`, with
`none` for the nil map. -/
structure JointConfig where
  incoming : MajorityConfig := ∅
  outgoing : Option MajorityConfig := none
  deriving DecidableEq

namespace JointConfig

/-- `c[1]` read as a set. -/
def outgoingIDs (c : JointConfig) : MajorityConfig := c.outgoing.getD ∅

/-- `JointConfig.IDs`. -/
def ids (c : JointConfig) : Finset PeerID := c.incoming ∪ c.outgoingIDs

/-- `JointConfig.CommittedIndex`. -/
def committedIndex (c : JointConfig) (acked : PeerID → Option Nat) : Nat :=
  let idx0 := c.incoming.committedIndex acked
  let idx1 := c.outgoingIDs.committedIndex acked
  if idx0 < idx1 then idx0 else idx1

/-- `JointConfig.VoteResult`. -/
def voteResult (c : JointConfig) (votes : PeerID → Option Bool) : VoteResult :=
  let r1 := c.incoming.voteResult votes
  let r2 := c.outgoingIDs.voteResult votes
  if r1 = r2 then r1
  else if r1 = .lost ∨ r2 = .lost then .lost
  else .pending

end JointConfig

/-- `quorum.Config`. -/
structure Config where
  voters : JointConfig := {}
  autoLeave : Bool := false
  learners : Option (Finset PeerID) := none
  learnersNext : Option (Finset PeerID) := none
  deriving DecidableEq

namespace Config

/-- `Learners` read as a set. -/
def learnerIDs (c : Config) : Finset PeerID := c.learners.getD ∅

/-- `LearnersNext` read as a set. -/
def learnersNextIDs (c : Config) : Finset PeerID := c.learnersNext.getD ∅

/-- `MakeEmptyConfig`. -/
def makeEmpty : Config := {}

/-- `Config.Clone`. The copy does not carry `AutoLeave`. -/
def clone (c : Config) : Config := { c with autoLeave := false }

/-- `Config.ConfState`. -/
def confState (c : Config) : ConfState where
  voters := c.voters.incoming.slice
  votersOutgoing := c.voters.outgoingIDs.slice
  learners := MajorityConfig.slice c.learnerIDs
  learnersNext := MajorityConfig.slice c.learnersNextIDs
  autoLeave := c.autoLeave

end Config

/-! ## Vote results are majorities -/

/-- The ids that voted yes. -/
def yesVotes (c : Finset PeerID) (votes : PeerID → Option Bool) : Finset PeerID :=
  c.filter fun id => votes id = some true

theorem MajorityConfig.voteResult_won_iff (c : MajorityConfig) (votes : PeerID → Option Bool) :
    c.voteResult votes = .won ↔ c = ∅ ∨ c.card / 2 + 1 ≤ (yesVotes c votes).card := by
  unfold MajorityConfig.voteResult yesVotes
  by_cases hc : c.card = 0
  · rw [if_pos hc]
    exact ⟨fun _ => .inl (card_eq_zero.mp hc), fun _ => rfl⟩
  · have hne : c ≠ ∅ := fun h => hc (by rw [h]; rfl)
    simp only [if_neg hc, hne, false_or]
    split
    · rename_i hge
      exact ⟨fun _ => hge, fun _ => rfl⟩
    · rename_i hlt
      split <;> simpa using hlt

theorem JointConfig.voteResult_won_iff (c : JointConfig) (votes : PeerID → Option Bool) :
    c.voteResult votes = .won ↔
      c.incoming.voteResult votes = .won ∧ c.outgoingIDs.voteResult votes = .won := by
  unfold JointConfig.voteResult
  cases h1 : c.incoming.voteResult votes <;> cases h2 : c.outgoingIDs.voteResult votes <;>
    simp

/-- `s` is a winning quorum of `c`: if exactly the ids of `s` vote, and vote
yes, then the vote is won. -/
def JointConfig.Wins (c : JointConfig) (s : Finset PeerID) : Prop :=
  c.voteResult (fun id => if id ∈ s then some true else none) = .won

theorem JointConfig.wins_iff (c : JointConfig) (s : Finset PeerID) :
    c.Wins s ↔ (c.incoming = ∅ ∨ IsMajority c.incoming s) ∧
      (c.outgoingIDs = ∅ ∨ IsMajority c.outgoingIDs s) := by
  have hyes : ∀ d : Finset PeerID,
      yesVotes d (fun id => if id ∈ s then some true else none) = d ∩ s := by
    intro d
    ext id
    by_cases hid : id ∈ s <;> simp [yesVotes, hid]
  unfold Wins IsMajority
  rw [JointConfig.voteResult_won_iff, MajorityConfig.voteResult_won_iff,
    MajorityConfig.voteResult_won_iff, hyes, hyes]

/-- Only the yes votes matter for winning. -/
theorem JointConfig.wins_of_voteResult {c : JointConfig} {votes : PeerID → Option Bool}
    {s : Finset PeerID} (h : c.voteResult votes = .won)
    (hs : ∀ id ∈ c.ids, votes id = some true → id ∈ s) : c.Wins s := by
  rw [JointConfig.voteResult_won_iff, MajorityConfig.voteResult_won_iff,
    MajorityConfig.voteResult_won_iff] at h
  rw [JointConfig.wins_iff]
  have hsub : ∀ d ⊆ c.ids, yesVotes d votes ⊆ d ∩ s := by
    intro d hd id hid
    obtain ⟨hidd, hyes⟩ := mem_filter.mp hid
    exact mem_inter.mpr ⟨hidd, hs id (hd hidd) hyes⟩
  refine ⟨h.1.imp_right fun h1 => ?_, h.2.imp_right fun h2 => ?_⟩
  · exact h1.trans (card_le_card (hsub _ subset_union_left))
  · exact h2.trans (card_le_card (hsub _ subset_union_right))

/-! ## Commit indexes are reached by majorities -/

theorem MajorityConfig.le_committedIndex_iff {c : MajorityConfig} (hc : c ≠ ∅)
    (acked : PeerID → Option Nat) (k : Nat) :
    k ≤ c.committedIndex acked ↔
      c.card / 2 + 1 ≤ (c.filter fun id => k ≤ (acked id).getD 0).card := by
  have hpos : 0 < c.card := card_pos.mpr (nonempty_iff_ne_empty.mpr hc)
  set raw := (slice c).map fun id => (acked id).getD 0 with hraw
  have hlen : (raw.insertionSort (· ≤ ·)).length = c.card := by
    simp [hraw, slice]
  have hpos' : c.card - (c.card / 2 + 1) < (raw.insertionSort (· ≤ ·)).length := by omega
  have hcount : (raw.insertionSort (· ≤ ·)).countP (k ≤ ·) =
      (c.filter fun id => k ≤ (acked id).getD 0).card := by
    rw [(List.perm_insertionSort _ raw).countP_eq, hraw, List.countP_map,
      List.countP_eq_length_filter]
    have hnd : ((slice c).filter ((fun x => decide (k ≤ x)) ∘
        fun id => (acked id).getD 0)).Nodup := (nodup_ascending c).filter _
    rw [← List.toFinset_card_of_nodup hnd]
    congr 1
    ext id
    simp [slice]
  unfold MajorityConfig.committedIndex
  rw [if_neg hpos.ne']
  simp only
  rw [List.getD_eq_getElem _ _ hpos',
    le_getElem_iff_countP (List.pairwise_insertionSort _ _) hpos', hcount, hlen]
  omega

end Cockroach.Raft
