import Cockroach.Raft.LogWrites
import Cockroach.Raft.Step

/-!
# Probing for the end of the common log

A leader that does not know where a follower's log stops agreeing with its own probes: it
sends an append at some index, and a follower that does not have that entry rejects it with
a hint. Both sides look for the hint with `findConflictByTerm`, the follower with the term of
the probe and the leader with the term of the hint.

`TermLog` are the terms of a whole log, also where a node has compacted it; a node `Knows`
them from some index on. `m` is the last index at which the two logs agree. A rejected probe
is followed by one that is lower and not below `m` (`round_bounds`), and at an index with a
lower term if it is rejected too (`round_term_lt`). So there are no more rejections than
terms in the leader's log after `m`, and the probes arrive at `m` (`probing_finds_match`).
-/

namespace Cockroach.Raft

/-- The terms of a log up to `last`. Index zero stands for the start of the log. -/
structure TermLog where
  last : Nat
  term : Nat → Nat
  zero : term 0 = 0
  pos : ∀ {i : Nat}, 0 < i → i ≤ last → 0 < term i
  mono : ∀ {i j : Nat}, i ≤ j → j ≤ last → term i ≤ term j

/-- The logs agree at `i`. -/
def TermLog.Agree (L F : TermLog) (i : Nat) : Prop :=
  i ≤ L.last ∧ i ≤ F.last ∧ L.term i = F.term i

/-- `m` is the last index at which the logs agree. -/
structure TermLog.MatchPoint (L F : TermLog) (m : Nat) : Prop where
  agree : L.Agree F m
  greatest : ∀ {i : Nat}, L.Agree F i → i ≤ m

namespace RaftLog

variable {l : RaftLog} {T : TermLog} {first i t : Nat}

/-- The node has the log `T`, compacted below `first`. -/
structure Knows (l : RaftLog) (T : TermLog) (first : Nat) : Prop where
  last : l.lastIndex = T.last
  term : ∀ {i : Nat}, first ≤ i → i ≤ T.last → l.term i = .ok (T.term i)
  compacted : ∀ {i : Nat}, i < first → ∃ err, l.term i = .error err
  unavailable : ∀ {i : Nat}, T.last < i → ∃ err, l.term i = .error err

namespace Knows

section

variable (h : l.Knows T first)
include h

theorem first_le (ht : l.term i = .ok t) : first ≤ i := by
  by_contra hlt
  obtain ⟨err, herr⟩ := h.compacted (not_le.mp hlt)
  rw [herr] at ht
  cases ht

theorem le_last (ht : l.term i = .ok t) : i ≤ T.last := by
  by_contra hlt
  obtain ⟨err, herr⟩ := h.unavailable (not_le.mp hlt)
  rw [herr] at ht
  cases ht

theorem term_eq (ht : l.term i = .ok t) : t = T.term i := by
  rw [h.term (h.first_le ht) (h.le_last ht)] at ht
  exact (Except.ok.inj ht).symm

theorem of_matchTerm (hmatch : l.matchTerm ⟨t, i⟩ = true) :
    i ≤ T.last ∧ t = T.term i := by
  unfold matchTerm at hmatch
  cases ht : l.term i with
  | error err =>
    rw [ht] at hmatch
    cases hmatch
  | ok t' =>
    rw [ht] at hmatch
    have heq : t' = t := beq_iff_eq.mp hmatch
    exact ⟨h.le_last ht, heq ▸ h.term_eq ht⟩

end

/-- A node whose log is in order knows its terms. -/
theorem of_logInv {A : LogSlice} {queue done : List LogWrite} (h : LogInv A l queue done)
    (hlast : T.last = A.lastIndex)
    (hterm : ∀ i, A.prev.index ≤ i → i ≤ A.lastIndex → T.term i = A.termAt i) :
    l.Knows T A.prev.index where
  last := h.lastIndex_eq.trans hlast.symm
  term := by
    intro i hge hle
    rw [hlast] at hle
    rw [h.term_eq, LogSlice.readTerm, if_neg (not_lt.mpr hge), if_neg (not_lt.mpr hle),
      hterm i hge hle]
  compacted := by
    intro i hlt
    exact ⟨.compacted, by rw [h.term_eq, LogSlice.readTerm, if_pos hlt]⟩
  unavailable := by
    intro i hlt
    rw [hlast] at hlt
    have hge : ¬ i < A.prev.index := by
      unfold LogSlice.lastIndex at hlt
      omega
    exact ⟨.unavailable, by rw [h.term_eq, LogSlice.readTerm, if_neg hge, if_pos hlt]⟩

end Knows

/-- What `findConflictByTerm` finds, from `index` downwards: everything above it has a larger
term, and it has not, or its term is not known. -/
inductive Conflict (l : RaftLog) (term index : Nat) : Nat × Nat → Prop
  | start (habove : ∀ j, 0 < j → j ≤ index → ∃ t, l.term j = .ok t ∧ term < t) :
      Conflict l term index (0, 0)
  | known {i t : Nat} (hle : i ≤ index) (hpos : 0 < i) (ht : l.term i = .ok t) (hterm : t ≤ term)
      (habove : ∀ j, i < j → j ≤ index → ∃ t, l.term j = .ok t ∧ term < t) :
      Conflict l term index (i, t)
  | unknown {i : Nat} {err : StorageErr} (hle : i ≤ index) (hpos : 0 < i)
      (herr : l.term i = .error err)
      (habove : ∀ j, i < j → j ≤ index → ∃ t, l.term j = .ok t ∧ term < t) :
      Conflict l term index (i, 0)

theorem findConflictByTerm_spec (l : RaftLog) (term index : Nat) :
    Conflict l term index (l.findConflictByTerm term index) := by
  induction index with
  | zero => exact .start fun j hpos hle => absurd hpos (not_lt.mpr hle)
  | succ index ih =>
    have hnone : ∀ j, index + 1 < j → j ≤ index + 1 → ∃ t, l.term j = .ok t ∧ term < t :=
      fun j hlt hle => absurd hlt (not_lt.mpr hle)
    unfold findConflictByTerm
    cases hterm : l.term (index + 1) with
    | error err => exact .unknown le_rfl (Nat.succ_pos _) hterm hnone
    | ok t =>
      dsimp only
      by_cases hle : t ≤ term
      · rw [if_pos hle]
        exact .known le_rfl (Nat.succ_pos _) hterm hle hnone
      · -- Go on below; this index is one more above.
        rw [if_neg hle]
        have hextend : ∀ i, (∀ j, i < j → j ≤ index → ∃ t, l.term j = .ok t ∧ term < t) →
            ∀ j, i < j → j ≤ index + 1 → ∃ t, l.term j = .ok t ∧ term < t := by
          intro i habove j hlt hj
          rcases Nat.lt_or_eq_of_le hj with hj | rfl
          · exact habove j hlt (Nat.le_of_lt_succ hj)
          · exact ⟨t, hterm, not_le.mp hle⟩
        generalize hres : l.findConflictByTerm term index = res at ih
        cases ih with
        | start habove => exact .start (hextend 0 habove)
        | known hi hpos ht hle' habove =>
          exact .known (Nat.le_succ_of_le hi) hpos ht hle' (hextend _ habove)
        | unknown hi hpos herr habove =>
          exact .unknown (Nat.le_succ_of_le hi) hpos herr (hextend _ habove)

/-- The search does not skip an index whose term is not larger. -/
theorem Conflict.le {term index : Nat} {res : Nat × Nat} (h : Conflict l term index res)
    (hknows : l.Knows T first) {m : Nat} (hm : m ≤ index) (hterm : T.term m ≤ term) :
    m ≤ res.1 := by
  have hstop : ∀ i, (∀ j, i < j → j ≤ index → ∃ t, l.term j = .ok t ∧ term < t) → m ≤ i := by
    intro i habove
    by_contra hlt
    obtain ⟨t, ht, hgt⟩ := habove m (not_le.mp hlt) hm
    rw [hknows.term_eq ht] at hgt
    exact absurd hterm (not_le.mpr hgt)
  cases h with
  | start habove => exact hstop 0 habove
  | known _ _ _ _ habove | unknown _ _ _ habove => exact hstop _ habove

end RaftLog

namespace Probing

/-- The hint of a follower with the log `F` that rejects a probe. -/
def hint (F : RaftLog) (index logTerm : Nat) : Nat × Nat :=
  F.findConflictByTerm logTerm (min index F.lastIndex)

/-- Where a leader with the log `L` probes next. -/
def nextProbeIdx (L : RaftLog) (hint : Nat × Nat) : Nat :=
  if hint.2 > 0 then (L.findConflictByTerm hint.2 hint.1).1 else hint.1

/-- The progress after the rejection of its probe, which had the term `t`. -/
def rejected (L F : RaftLog) (pr : Progress) (t : Nat) : Progress :=
  (pr.maybeDecrTo (pr.next - 1) (nextProbeIdx L (hint F (pr.next - 1) t))).2

/-- The next probe, if it is rejected. It is none if the leader has compacted its log up to
there, or the follower has committed further or has the entry. -/
def round (L F : RaftLog) (pr : Progress) : Option Progress :=
  match L.term (pr.next - 1) with
  | .error _ => none
  | .ok t =>
    if pr.next - 1 < F.committed ∨ F.matchTerm ⟨t, pr.next - 1⟩ = true then none
    else some (rejected L F pr t)

/-- Rejected probes in a row, with their indexes. -/
inductive Rejections (L F : RaftLog) : Progress → List Nat → Progress → Prop
  | done (pr : Progress) : Rejections L F pr [] pr
  | reject {pr pr₁ pr' : Progress} {is : List Nat} (h : round L F pr = some pr₁)
      (hrest : Rejections L F pr₁ is pr') : Rejections L F pr ((pr.next - 1) :: is) pr'

/-! ## The messages of a round -/

/-- The follower's half of a rejected round. -/
theorem handleAppendEntries_rejects {r : RaftNode} {m : Message}
    (hmatch : m.matchIdx ≤ r.raftLog.lastIndex)
    (hvalid : (logSliceFromMsgApp m).valid = true)
    (hcommit : r.raftLog.committed ≤ m.index)
    (hno : r.raftLog.matchTerm ⟨m.logTerm, m.index⟩ = false) :
    r.handleAppendEntries m = r.send {
      dst := m.src, type := .appResp, index := m.index, commit := r.raftLog.committed,
      reject := true, rejectHint := (hint r.raftLog m.index m.logTerm).1,
      logTerm := (hint r.raftLog m.index m.logTerm).2 } := by
  have hprev : (logSliceFromMsgApp m).prev = ⟨m.logTerm, m.index⟩ := rfl
  have hno' : r.raftLog.maybeAppend (logSliceFromMsgApp m) = .ok none := by
    unfold RaftLog.maybeAppend RaftLog.matchSlice
    rw [hprev, hno]
    rfl
  unfold RaftNode.handleAppendEntries RaftNode.checkMatch
  rw [assertTrue_of hmatch]
  change (if (logSliceFromMsgApp m).valid = false then _ else _) = _
  rw [hvalid, if_neg Bool.noConfusion]
  change (if m.index < r.raftLog.committed then _ else _) = _
  rw [if_neg (not_lt.mpr hcommit), hno']
  rfl

theorem maybeDecrTo_probe {pr : Progress} (hstate : pr.state = .probe) (probe : Nat) :
    pr.maybeDecrTo (pr.next - 1) probe = (true, { pr with
      next := max (min (pr.next - 1) (probe + 1)) (pr.matchIdx + 1)
      sentCommit :=
        min pr.sentCommit (max (min (pr.next - 1) (probe + 1)) (pr.matchIdx + 1) - 1)
      msgAppProbesPaused := false }) := by
  unfold Progress.maybeDecrTo
  rw [hstate, if_neg ProgressState.noConfusion, if_neg (not_not.mpr rfl)]

/-- The leader's half: it probes again with the lowered progress. -/
theorem leaderAppReject_probes [Codec] {env : Env} {r : RaftNode} {pr : Progress} {m : Message}
    {F : RaftLog} {t : Nat} (hstate : pr.state = .probe) (hindex : m.index = pr.next - 1)
    (hhint : (m.rejectHint, m.logTerm) = hint F (pr.next - 1) t) :
    r.leaderAppReject env pr m = (do
      let r := r.setProgress m.src (rejected r.raftLog F pr t)
      return (← r.maybeSendAppend env m.src).2) := by
  have hprobe : (if m.logTerm > 0 then (r.raftLog.findConflictByTerm m.logTerm m.rejectHint).1
      else m.rejectHint) = nextProbeIdx r.raftLog (hint F (pr.next - 1) t) := by
    rw [← hhint]
    rfl
  unfold RaftNode.leaderAppReject rejected
  simp only [hprobe, hindex, maybeDecrTo_probe hstate, hstate, if_true]
  rfl

/-! ## Rounds -/

section Rounds

variable {L F : RaftLog} {TL TF : TermLog} {cl cf m : Nat} {pr pr' pr₁ : Progress}

/-- What it takes for a probe to be rejected. -/
theorem round_eq_some (h : round L F pr = some pr') : ∃ t, L.term (pr.next - 1) = .ok t ∧
    F.committed ≤ pr.next - 1 ∧ F.matchTerm ⟨t, pr.next - 1⟩ = false ∧
    pr' = rejected L F pr t := by
  unfold round at h
  cases ht : L.term (pr.next - 1) with
  | error err =>
    rw [ht] at h
    cases h
  | ok t =>
    rw [ht] at h
    dsimp only at h
    split_ifs at h with hno
    rw [not_or, not_lt, Bool.not_eq_true] at hno
    exact ⟨t, rfl, hno.1, hno.2, (Option.some.inj h).symm⟩

section Matched

variable (hL : L.Knows TL cl) (hF : F.Knows TF cf) (hm : TL.MatchPoint TF m)

include hL hF hm

/-- The next probe does not skip the match point. -/
theorem le_nextProbeIdx {i t : Nat} (hi : m ≤ i) (ht : TL.term m ≤ t) :
    m ≤ nextProbeIdx L (hint F i t) := by
  obtain ⟨hmL, hmF, hagree⟩ := hm.agree
  have hspec : F.Conflict t (min i F.lastIndex) (hint F i t) := F.findConflictByTerm_spec _ _
  have hle : m ≤ (hint F i t).1 := by
    refine hspec.le hF (le_min hi ?_) (hagree ▸ ht)
    rw [hF.last]
    exact hmF
  unfold nextProbeIdx
  split_ifs with hpos
  · refine (L.findConflictByTerm_spec _ _).le hL hle ?_
    -- The hint is at or above the match point, so its term is no smaller.
    generalize hint F i t = res at hspec hle hpos ⊢
    cases hspec with
    | start | unknown => exact absurd hpos (lt_irrefl 0)
    | known _ _ hterm _ _ =>
      rw [hF.term_eq hterm, hagree]
      exact TF.mono hle (hF.le_last hterm)
  · exact hle

/-- Once a probe is rejected, the next one is lower and not below the match point. -/
theorem round_bounds (hstate : pr.state = .probe) (hmatch : pr.matchIdx ≤ m) (hlo : m < pr.next - 1)
    (hhi : pr.next ≤ TL.last + 1) (h : round L F pr = some pr') :
    m ≤ pr'.next - 1 ∧ pr'.next - 1 < pr.next - 1 ∧ pr'.state = .probe ∧
      pr'.matchIdx = pr.matchIdx := by
  obtain ⟨t, ht, -, -, rfl⟩ := round_eq_some h
  have htL := hL.term_eq ht
  have hprobe : m ≤ nextProbeIdx L (hint F (pr.next - 1) t) := by
    refine le_nextProbeIdx hL hF hm hlo.le ?_
    rw [htL]
    exact TL.mono hlo.le (by omega)
  unfold rejected
  rw [maybeDecrTo_probe hstate]
  dsimp only
  exact ⟨by omega, by omega, hstate, rfl⟩

/-- A rejected probe is above the match point. -/
theorem lt_of_round (hcf : cf ≤ F.committed) (hlo : m ≤ pr.next - 1) (h : round L F pr = some pr') :
    m < pr.next - 1 := by
  obtain ⟨t, ht, hcommit, hno, -⟩ := round_eq_some h
  refine lt_of_le_of_ne hlo fun heq => ?_
  obtain ⟨hmL, hmF, hagree⟩ := hm.agree
  rw [← heq] at ht hcommit hno
  have htF : F.term m = .ok (TF.term m) := hF.term (hcf.trans hcommit) hmF
  rw [RaftLog.matchTerm, htF, hL.term_eq ht, hagree] at hno
  exact absurd hno (by simp)

/-- Between the next probe and the match point the leader has lower terms than at the probe
that was rejected: otherwise the logs would agree at the hint. -/
theorem nextProbeIdx_term_lt {i i₁ : Nat} (hi : i ≤ TL.last) (hlo : m < i₁) (hcl : cl ≤ i₁)
    (hcf : cf ≤ i₁) (hle : i₁ ≤ nextProbeIdx L (hint F i (TL.term i))) :
    TL.term i₁ < TL.term i := by
  have hspec : F.Conflict (TL.term i) (min i F.lastIndex) (hint F i (TL.term i)) :=
    F.findConflictByTerm_spec _ _
  rw [hF.last] at hspec
  generalize hint F i (TL.term i) = res at hspec hle
  unfold nextProbeIdx at hle
  cases hspec with
  | start =>
    have hzero : i₁ ≤ 0 := hle
    omega
  | @unknown g err hg hpos herr _ =>
    have hle' : i₁ ≤ g := hle
    rw [hF.term (by omega) (by omega)] at herr
    cases herr
  | @known g t hg hpos ht hterm _ =>
    have htF : t = TF.term g := hF.term_eq ht
    have htpos : t > 0 := htF ▸ TF.pos hpos (by omega)
    rw [if_pos htpos] at hle
    have hspecL : L.Conflict t g (L.findConflictByTerm t g) := L.findConflictByTerm_spec _ _
    generalize L.findConflictByTerm t g = res at hspecL hle
    cases hspecL with
    | start =>
      omega
    | @unknown p err hp hppos herr _ =>
      rw [hL.term (by omega) (by omega)] at herr
      cases herr
    | @known p tp hp hppos htp hterm' _ =>
      have hle' : i₁ ≤ p := hle
      have htL : tp = TL.term p := hL.term_eq htp
      have hbelow : TL.term i₁ ≤ TL.term p := TL.mono hle' (by omega)
      have hupper : TL.term i₁ ≤ TL.term g := TL.mono (by omega) (by omega)
      have hlower : TL.term g ≤ TL.term i := TL.mono (by omega) hi
      by_contra hge
      have hagree : TL.Agree TF g := ⟨by omega, by omega, by omega⟩
      have := hm.greatest hagree
      omega

/-- Two rejected probes in a row are at different terms. -/
theorem round_term_lt (hcf : cf ≤ F.committed) (hstate : pr.state = .probe)
    (hmatch : pr.matchIdx ≤ m) (hlo : m < pr.next - 1) (hhi : pr.next ≤ TL.last + 1)
    (h : round L F pr = some pr₁)
    (h₁ : round L F pr₁ = some pr') : TL.term (pr₁.next - 1) < TL.term (pr.next - 1) := by
  have hlo₁ := lt_of_round hL hF hm hcf (round_bounds hL hF hm hstate hmatch hlo hhi h).1 h₁
  obtain ⟨t₁, ht₁, hcommit₁, -, -⟩ := round_eq_some h₁
  obtain ⟨t, ht, -, -, rfl⟩ := round_eq_some h
  have htL := hL.term_eq ht
  refine nextProbeIdx_term_lt hL hF hm (by omega) hlo₁ (hL.first_le ht₁)
    (hcf.trans hcommit₁) ?_
  rw [← htL]
  unfold rejected at hlo₁ ⊢
  rw [maybeDecrTo_probe hstate] at hlo₁ ⊢
  dsimp only at hlo₁ ⊢
  omega

/-- What holds along a row of rejected probes. -/
theorem rejections_spec (hcf : cf ≤ F.committed) {is : List Nat} (h : Rejections L F pr is pr')
    (hstate : pr.state = .probe) (hmatch : pr.matchIdx ≤ m) (hlo : m ≤ pr.next - 1)
    (hhi : pr.next ≤ TL.last + 1) :
    m ≤ pr'.next - 1 ∧ (∀ i ∈ is, m < i ∧ i ≤ TL.last ∧ TL.term i ≤ TL.term (pr.next - 1)) ∧
      is.Pairwise (TL.term · > TL.term ·) := by
  induction h with
  | done => exact ⟨hlo, nofun, .nil⟩
  | @reject pr pr₁ pr' is h hrest ih =>
    have hlo' := lt_of_round hL hF hm hcf hlo h
    obtain ⟨hlo₁, hlt, hstate₁, hmatch₁⟩ := round_bounds hL hF hm hstate hmatch hlo' hhi h
    obtain ⟨hend, hmem, hpair⟩ := ih hstate₁ (hmatch₁ ▸ hmatch) hlo₁ (by omega)
    -- The next rejected probe, if there is one, is at a lower term.
    have hlower : ∀ i ∈ is, TL.term i < TL.term (pr.next - 1) := by
      intro i hi
      cases hrest with
      | done => cases hi
      | reject h₁ _ =>
        exact (hmem i hi).2.2.trans_lt
          (round_term_lt hL hF hm hcf hstate hmatch hlo' hhi h h₁)
    refine ⟨hend, ?_, List.pairwise_cons.mpr ⟨hlower, hpair⟩⟩
    intro i hi
    rcases List.mem_cons.mp hi with rfl | hi
    · exact ⟨hlo', by omega, le_rfl⟩
    · exact ⟨(hmem i hi).1, (hmem i hi).2.1, (hlower i hi).le⟩

/-- Probes are rejected until they are at the match point. -/
theorem exists_rejections (hcl : cl ≤ m) (hcommit : F.committed ≤ m) (hstate : pr.state = .probe)
    (hmatch : pr.matchIdx ≤ m) (hlo : m ≤ pr.next - 1) (hhi : pr.next ≤ TL.last + 1) :
    ∃ is pr', Rejections L F pr is pr' ∧ pr'.next - 1 = m := by
  induction hn : pr.next - 1 - m using Nat.strong_induction_on generalizing pr with
  | _ n ih =>
    rcases Nat.eq_or_lt_of_le hlo with heq | hlt
    · exact ⟨[], pr, .done pr, heq.symm⟩
    · have ht : L.term (pr.next - 1) = .ok (TL.term (pr.next - 1)) :=
        hL.term (by omega) (by omega)
      have hno : F.matchTerm ⟨TL.term (pr.next - 1), pr.next - 1⟩ = false := by
        refine Bool.eq_false_iff.mpr fun hyes => ?_
        obtain ⟨hlast, hterm⟩ := hF.of_matchTerm hyes
        exact absurd (hm.greatest ⟨by omega, hlast, hterm⟩) (not_le.mpr hlt)
      have hround : round L F pr = some (rejected L F pr (TL.term (pr.next - 1))) := by
        unfold round
        rw [ht]
        dsimp only
        rw [if_neg]
        rw [not_or, hno]
        exact ⟨by omega, Bool.noConfusion⟩
      obtain ⟨hlo₁, hlt₁, hstate₁, hmatch₁⟩ :=
        round_bounds hL hF hm hstate hmatch hlt hhi hround
      obtain ⟨is, pr', hrest, hend⟩ :=
        ih _ (by omega) hstate₁ (hmatch₁ ▸ hmatch) hlo₁ (by omega) rfl
      exact ⟨_, pr', .reject hround hrest, hend⟩

/-- A probe that is not rejected is at the match point, unless the leader has compacted its
log there or the follower has committed further. -/
theorem round_eq_none (hlo : m ≤ pr.next - 1) (h : round L F pr = none) :
    pr.next - 1 = m ∨ (∃ err, L.term (pr.next - 1) = .error err) ∨ pr.next - 1 < F.committed := by
  unfold round at h
  cases ht : L.term (pr.next - 1) with
  | error err => exact .inr (.inl ⟨err, rfl⟩)
  | ok t =>
    rw [ht] at h
    dsimp only at h
    split_ifs at h with hstop
    rcases hstop with hcommit | hyes
    · exact .inr (.inr hcommit)
    · obtain ⟨hlast, hterm⟩ := hF.of_matchTerm hyes
      have hagree : TL.Agree TF (pr.next - 1) :=
        ⟨hL.le_last ht, hlast, (hL.term_eq ht).symm.trans hterm⟩
      exact .inl (le_antisymm (hm.greatest hagree) hlo)

end Matched

/-- Probing is sound and makes progress. Every rejected probe is followed by a lower one that
is not below the match point; there are at most as many rejections as terms in the leader's
log after the match point; and where they end, the probe is at the match point, unless the
leader has compacted its log there or the follower has committed further. If neither is the
case for the match point itself, it is reached. -/
theorem probing_finds_match (hL : L.Knows TL cl) (hF : F.Knows TF cf) (hm : TL.MatchPoint TF m)
    (hcf : cf ≤ F.committed) (hstate : pr.state = .probe) (hmatch : pr.matchIdx ≤ m)
    (hlo : m ≤ pr.next - 1) (hhi : pr.next ≤ TL.last + 1) :
    (∀ pr', round L F pr = some pr' → m ≤ pr'.next - 1 ∧ pr'.next - 1 < pr.next - 1) ∧
    (∀ is pr', Rejections L F pr is pr' → m ≤ pr'.next - 1 ∧
      is.length ≤ ((Finset.Ioc m TL.last).image TL.term).card ∧
      (round L F pr' = none → pr'.next - 1 = m ∨ (∃ err, L.term (pr'.next - 1) = .error err) ∨
        pr'.next - 1 < F.committed)) ∧
    (cl ≤ m → F.committed ≤ m → ∃ is pr', Rejections L F pr is pr' ∧ pr'.next - 1 = m) := by
  refine ⟨fun pr' h => ?_, fun is pr' h => ?_, fun hcl hcommit => ?_⟩
  · have hlo' := lt_of_round hL hF hm hcf hlo h
    obtain ⟨hge, hlt, -⟩ := round_bounds hL hF hm hstate hmatch hlo' hhi h
    exact ⟨hge, hlt⟩
  · obtain ⟨hge, hmem, hpair⟩ := rejections_spec hL hF hm hcf h hstate hmatch hlo hhi
    refine ⟨hge, ?_, round_eq_none hL hF hm hge⟩
    -- The terms of the rejected probes are different.
    have hnodup : (is.map TL.term).Nodup := List.pairwise_map.mpr (hpair.imp fun h => h.ne')
    rw [← List.length_map TL.term, ← List.toFinset_card_of_nodup hnodup]
    refine Finset.card_le_card fun t ht => ?_
    obtain ⟨i, hi, rfl⟩ := List.mem_map.mp (List.mem_toFinset.mp ht)
    exact Finset.mem_image_of_mem _ (Finset.mem_Ioc.mpr ⟨(hmem i hi).1, (hmem i hi).2.1⟩)
  · exact exists_rejections hL hF hm hcl hcommit hstate hmatch hlo hhi

end Rounds

/-! A leader with the terms `1 3 3 5` and a follower with `1 1 2`. -/

def leaderEnts : List Entry :=
  [{ term := 1, index := 1 }, { term := 3, index := 2 }, { term := 3, index := 3 },
    { term := 5, index := 4 }]

def followerEnts : List Entry :=
  [{ term := 1, index := 1 }, { term := 1, index := 2 }, { term := 2, index := 3 }]

/-- A log that is all in storage, and nothing of it committed. -/
def storedLog (ents : List Entry) : RaftLog where
  storage := { ents }
  unstable := .new ⟨(LogSlice.lastID {} ents).term, ents.length⟩

def leaderTerms : TermLog where
  last := 4
  term i := [0, 1, 3, 3, 5].getD i 0
  zero := rfl
  pos := by
    intro i hpos hle
    interval_cases i <;> decide
  mono := by
    intro i j hij hj
    interval_cases j <;> interval_cases i <;> decide

def followerTerms : TermLog where
  last := 3
  term i := [0, 1, 1, 2].getD i 0
  zero := rfl
  pos := by
    intro i hpos hle
    interval_cases i <;> decide
  mono := by
    intro i j hij hj
    interval_cases j <;> interval_cases i <;> decide

/-- From a probe at the end of its log the leader finds index one, where the logs part. -/
theorem probing_finds_match_one : ∃ is pr',
    Rejections (storedLog leaderEnts) (storedLog followerEnts) { next := 5 } is pr' ∧
      pr'.next - 1 = 1 := by
  have hleader : RaftLog.newLogWithSize { ents := leaderEnts } noLimit =
      .ok (storedLog leaderEnts) := rfl
  have hfollower : RaftLog.newLogWithSize { ents := followerEnts } noLimit =
      .ok (storedLog followerEnts) := rfl
  have hL : (storedLog leaderEnts).Knows leaderTerms 0 := by
    refine RaftLog.Knows.of_logInv ((LogInv.init ?_).elim hleader).2 rfl ?_
    · simp [LogSlice.Chained, leaderEnts, pbEntryID]
    · intro i _ hi
      have hi' : i ≤ 4 := hi
      interval_cases i <;> rfl
  have hF : (storedLog followerEnts).Knows followerTerms 0 := by
    refine RaftLog.Knows.of_logInv ((LogInv.init ?_).elim hfollower).2 rfl ?_
    · simp [LogSlice.Chained, followerEnts, pbEntryID]
    · intro i _ hi
      have hi' : i ≤ 3 := hi
      interval_cases i <;> rfl
  have hm : leaderTerms.MatchPoint followerTerms 1 := by
    refine ⟨⟨by decide, by decide, rfl⟩, ?_⟩
    rintro i ⟨-, hi, hterm⟩
    have hi' : i ≤ 3 := hi
    by_contra hlt
    interval_cases i
    · cases hterm
    · cases hterm
  exact (probing_finds_match hL hF hm le_rfl rfl (Nat.zero_le _) (by decide) (by decide)).2.2
    (Nat.zero_le _) (Nat.zero_le _)

end Probing

end Cockroach.Raft
