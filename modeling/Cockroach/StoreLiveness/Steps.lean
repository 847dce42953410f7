import Cockroach.StoreLiveness.Promises

/-!
# Beginning an update

One lemma an action of the main goroutine that begins an update, and one for what
other goroutines do meanwhile. None of them panics.
-/

namespace Cockroach.StoreLiveness

open Lib Hlc RequesterStateForUpdate List SupporterStateForUpdate SupportManager RequesterState

variable {sent : List Message} {id : StoreIdent} {d : Disk} {sm : SupportManager}
  {rs : RequesterState} {l : List StoreIdent}

theorem Pending.eq_of_idle {p : Pending} (h : p.idle = true) : p = {} := by
  obtain ⟨commits, ⟨rmd, rf⟩, ⟨smd, sf⟩, out⟩ := p
  simp only [idle, Bool.and_eq_true, List.isEmpty_iff, beq_iff_eq, Std.ExtTreeMap.isEmpty_iff] at h
  obtain ⟨⟨⟨⟨⟨rfl, rfl⟩, rfl⟩, rfl⟩, rfl⟩, rfl⟩ := h
  rfl

/-- An update in progress over another checked-in view. -/
theorem getSupportFrom_withRequester {s : StoreIdent} {ss : SupportState}
    (h : (rsfu { sm with requester := rs, storesToAdd := l }).getSupportFrom s = some ss) :
    sm.pending.requester.state s = some ss ∧ sm.rsfu.getSupportFrom s = some ss ∨
      rs.state s = some ss := by
  rw [getSupportFrom_eq, Option.or_eq_some_iff] at h ⊢
  exact h.imp (fun h => ⟨h, .inl h⟩) fun h => h.2

/-- Only the checked-in view of the requester changes, and not for stores it knows. -/
theorem Follows.of_requester (h : ∀ s ∈ sm.requester.supportFrom, ∀ ss, rs.state s = some ss →
      sm.requester.state s = some ss) :
    Follows sent id sm { sm with requester := rs, storesToAdd := l } := by
  refine ⟨rfl, fun s hs ss hsees => .inl ?_⟩
  rcases hsees with hsees | hsees
  · exact .inl (h s hs ss hsees)
  · rcases getSupportFrom_withRequester hsees with ⟨-, hip⟩ | hci
    · exact .inr hip
    · exact .inl (h s hs ss hci)

theorem Follows.trans {sm' sm'' : SupportManager} (h : Follows sent id sm sm')
    (hin : ∀ s ∈ sm.requester.supportFrom, s ∈ sm'.requester.supportFrom)
    (h' : Follows sent id sm' sm'') : Follows sent id sm sm'' := by
  refine ⟨h'.supporter.trans h.supporter, fun s hs ss hsees => ?_⟩
  rcases h'.requester s (hin s hs) ss hsees with hsees | hheard
  · exact h.requester s hs ss hsees
  · exact .inr hheard

/-- The commit of a changed requester meta is all that is left. -/
theorem rest_metaCommits {u : RequesterState} {f : StoreIdent → SupportState}
    (hm : MetaOk ⟨rs, u⟩) (hdisk : d.requesterMeta = rs.metadata)
    (hd : ∀ r, d.state r = f r) (hshape : ∀ r, Shape sent id r (f r)) :
    Rest sent id (md ⟨rs, u⟩) f d
      (metaCommits (if u.metadata = {} then none else some u.metadata)) := by
  have hle := hm.le_md
  unfold md at hle ⊢
  by_cases he : u.metadata = {}
  · rw [if_pos he, if_neg (not_not_intro he)]
    exact ⟨hdisk, hd⟩
  · rw [if_pos he] at hle
    rw [if_neg he, if_pos he]
    refine ⟨⟨fun r => .refl _, hdisk.trans_le hle, Subset.refl _, fun w hw => .inl hw,
      fun r => ?_⟩, rfl, hd⟩
    show Shape sent id r (d.state r)
    rw [hd]
    exact hshape r

namespace Running

variable (h : Running sent id d sm)
include h

/-- Once nothing is left of an update but its messages, memory and disk agree. -/
theorem settled (hp : sm.pending = { out := sm.pending.out }) : sm.rsfu.md = sm.requester.metadata ∧
      (∀ s, sm.rsfu.getSupportFrom s = sm.requester.state s) ∧
      (∀ r, sm.ssfu.state r = sm.supporter.state r) ∧
      d.requesterMeta = sm.requester.metadata ∧ ∀ r, d.state r = sm.supporter.state r := by
  have hmd : sm.rsfu.md = sm.requester.metadata := by
    unfold rsfu
    rw [hp, md_empty]
  have hfor : ∀ r, sm.ssfu.state r = sm.supporter.state r := by
    intro r
    unfold ssfu
    rw [hp, state_empty]
  have hrest := h.rest
  rw [hp] at hrest
  refine ⟨hmd, fun s => ?_, hfor, hrest.1.trans hmd, fun r => (hrest.2 r).trans (hfor r)⟩
  unfold rsfu
  rw [hp, getSupportFrom_empty]

theorem idle (hp : sm.pending = {}) : sm.rsfu.md = sm.requester.metadata ∧
      (∀ s, sm.rsfu.getSupportFrom s = sm.requester.state s) ∧
      (∀ r, sm.ssfu.state r = sm.supporter.state r) ∧
      d.requesterMeta = sm.requester.metadata ∧ ∀ r, d.state r = sm.supporter.state r :=
  h.settled (by rw [hp])

/-- The checked-in view of the requester changes, but not its metadata. -/
theorem withRequester (hmeta : rs.metadata = sm.requester.metadata)
    (hreq : ∀ s ss, rs.state s = some ss → Requested sent id sm.rsfu.md s ss)
    (hpresent : ∀ s ∈ sm.pending.requester.supportFrom, rs.state s = sm.requester.state s)
    (hout : ∀ m ∈ sm.pending.out, m.type = .heartbeat →
      ∃ ss, rs.state m.dst = some ss ∧ ss.epoch = m.epoch) :
    Running sent id d { sm with requester := rs, storesToAdd := l } := by
  have hmd :
      (rsfu { sm with requester := rs, storesToAdd := l }).md = sm.rsfu.md := by
    unfold rsfu md
    rw [hmeta]
  exact { h with
    rest := by
      rw [hmd]
      exact h.rest
    requesterMeta := by
      intro hne
      show rs.metadata ≤ _
      rw [hmeta]
      exact h.requesterMeta hne
    metaDisk := by
      show rs.metadata ≤ _
      rw [hmeta]
      exact h.metaDisk
    metaPos := by
      rw [hmd]
      exact h.metaPos
    requested := by
      intro s ss hs
      rw [hmd]
      rcases hs with hs | hs
      · exact hreq s ss hs
      · rcases getSupportFrom_withRequester hs with ⟨-, hip⟩ | hci
        · exact h.requested s ss (.inr hip)
        · exact hreq s ss hci
    present := by
      intro s hs
      rw [mem_iff, hpresent s hs, ← mem_iff]
      exact h.present s hs
    progress := by
      intro s ss hs
      rcases getSupportFrom_withRequester hs with ⟨hip, hget⟩ | hci
      · have hold := h.progress s ss hget
        rw [← hpresent s (mem_of_state hip)] at hold
        exact hold
      · exact .inl hci
    clock := by
      rw [hmd]
      exact h.clock
    outBeat := by
      intro m hm ht
      rw [hmd]
      obtain ⟨hsrc, hx, hpos, -, hnone, hold⟩ := h.outBeat m hm ht
      exact ⟨hsrc, hx, hpos, hout m hm ht, hnone, hold⟩ }

/-- A call of `SupportFrom` changes nothing that matters. -/
theorem sameRequester (hmeta : rs.metadata = sm.requester.metadata)
    (hstate : ∀ s, rs.state s = sm.requester.state s) :
    Running sent id d { sm with requester := rs, storesToAdd := l } := by
  refine h.withRequester hmeta (fun s ss hs => ?_) (fun s _ => hstate s) fun m hm ht => ?_
  · rw [hstate] at hs
    exact h.requested s ss (.inl hs)
  · obtain ⟨-, -, -, hss, -, -⟩ := h.outBeat m hm ht
    rw [hstate]
    exact hss

/-- Something else has moved the clock. -/
theorem setClock {clock : Clock}
    (hle : sm.clock.timestamp ≤ clock.timestamp) : Running sent id d { sm with clock } :=
  { h with clock := h.clock.trans (Timestamp.add_le_add hle) }

/-- What other goroutines do keeps the invariant. -/
theorem concurrent (a : Store.Act) :
    Running sent id d (Store.concurrent sm a) ∧ Follows sent id sm (Store.concurrent sm a) := by
  have hrefl : ∀ {sm' : SupportManager}, sm'.requester = sm.requester →
      sm'.supporter = sm.supporter → sm'.pending = sm.pending → Follows sent id sm sm' := by
    intro sm' hr hs hp
    refine ⟨hs, fun s _ ss hsees => .inl ?_⟩
    unfold Sees rsfu at hsees ⊢
    rw [hr, hp] at hsees
    exact hsees
  cases a with
  | querySupportFrom s =>
    show Running sent id d (sm.querySupportFrom s) ∧ Follows sent id sm (sm.querySupportFrom s)
    unfold querySupportFrom
    split_ifs
    · have hsame : ∀ s', (sm.requester.queried s).state s' = sm.requester.state s' := by
        intro s'
        unfold RequesterState.state RequesterState.queried
        rw [Std.ExtTreeMap.getElem?_modify]
        split_ifs with heq
        · rw [StoreIdent.compare_eq.mp heq]
          cases sm.requester.supportFrom[s']? <;> rfl
        · rfl
      refine ⟨h.sameRequester rfl hsame, .of_requester fun s' _ ss hs' => ?_⟩
      rw [hsame] at hs'
      exact hs'
    · exact ⟨h.sameRequester rfl fun _ => rfl, hrefl rfl rfl rfl⟩
  | readClock p => exact ⟨h.setClock (sm.clock.lt_now p).le, hrefl rfl rfl rfl⟩
  | updateClock rt => exact ⟨h.setClock (sm.clock.le_update rt), hrefl rfl rfl rfl⟩
  | _ => exact ⟨h, hrefl rfl rfl rfl⟩

variable (hp : sm.pending = {})
include hp

/-- The main goroutine changes the set of stores it asks. -/
theorem setRequester (hmeta : rs.metadata = sm.requester.metadata)
    (hreq : ∀ s ss, rs.state s = some ss → Requested sent id sm.requester.metadata s ss) :
    Running sent id d { sm with requester := rs, storesToAdd := l } := by
  obtain ⟨hmd, -⟩ := h.idle hp
  refine h.withRequester hmeta (hmd ▸ hreq) (fun s hs => ?_) fun m hm _ => ?_
  · rw [hp] at hs
    exact absurd hs Std.ExtTreeMap.not_mem_empty
  · rw [hp] at hm
    cases hm

theorem addStores (hasks : Asks sent id d.requesterMeta) :
    Running sent id d sm.maybeAddStores ∧ Follows sent id sm sm.maybeAddStores ∧
      ∀ s ∈ sm.requester.supportFrom, s ∈ sm.maybeAddStores.requester.supportFrom := by
  obtain ⟨hmd, hget, -, hdisk, -⟩ := h.idle hp
  have hpos := h.metaPos
  rw [hmd] at hpos
  obtain ⟨hmeta, hstate⟩ := addStores_spec sm.storesToAdd sm.requester
  refine ⟨h.setRequester hp hmeta fun s ss hs => ?_, .of_requester fun s hs ss hss => ?_,
    fun s hs => ?_⟩
  · rcases hstate s with hold | ⟨-, hnew⟩
    · rw [hold] at hs
      have hreq := h.requested s ss (.inl hs)
      rw [hmd] at hreq
      exact hreq
    · -- A store that is added starts with the largest epoch ever asked for.
      rw [hnew] at hs
      cases hs
      refine ⟨rfl, hpos, le_rfl, .inl rfl, fun m hm hb => ?_⟩
      have hle := (hasks.bounds m hm hb.1 hb.2.1).2.2.1
      rw [hdisk] at hle
      exact hle
  · rcases hstate s with hold | ⟨hnot, -⟩
    · rw [hold] at hss
      exact hss
    · exact absurd hs hnot
  · rcases hstate s with hold | ⟨hnot, -⟩
    · rw [mem_iff] at hs ⊢
      exact hold.trans_ne hs
    · exact absurd hs hnot

theorem removeIdle :
    Running sent id d { sm with requester := sm.requester.removeIdleStores } ∧
      Follows sent id sm { sm with requester := sm.requester.removeIdleStores } := by
  obtain ⟨hmd, -⟩ := h.idle hp
  have hold : ∀ s ss, sm.requester.removeIdleStores.state s = some ss →
      sm.requester.state s = some ss := by
    intro s ss hs
    unfold RequesterState.state RequesterState.removeIdleStores at hs
    unfold RequesterState.state
    dsimp only at hs
    rw [Std.ExtTreeMap.getElem?_filterMap] at hs
    cases hr : sm.requester.supportFrom[s]? with
    | none =>
      simp [hr] at hs
    | some rs =>
      simp only [hr, Option.pbind_some, Option.map_eq_some_iff] at hs
      obtain ⟨rs', hrs', rfl⟩ := hs
      split_ifs at hrs'
      cases hrs'
      rfl
  refine ⟨h.setRequester hp rfl fun s ss hs => ?_, .of_requester fun s _ => hold s⟩
  have := h.requested s ss (.inl (hold s ss hs))
  rw [hmd] at this
  exact this

/-- A round of heartbeats: their expiration is later than any asked for before. -/
theorem sendHeartbeats (hasks : Asks sent id d.requesterMeta) (p : Nat) :
    ∃ sm', sm.sendHeartbeats p = .ok sm' ∧ Running sent id d sm' ∧ Follows sent id sm sm' := by
  obtain ⟨hmd, hget, hfor, hdisk, hstate⟩ := h.idle hp
  have hnone : sm.rsfu.inProgress.supportFrom = ∅ := by
    unfold rsfu
    rw [hp]
  obtain ⟨⟨_, u⟩, hu, hc, hm, hf, humd⟩ := updateMaxRequested_spec
    h.requesterMeta (sm.clock.now p).timestamp sm.options.livenessInterval
  obtain rfl : _ = sm.requester := hc
  replace hf : u.supportFrom = ∅ := hf.trans hnone
  obtain ⟨out, hout, hmem⟩ := generateHeartbeats_spec hm hf sm.storeID
  have hlt : sm.rsfu.md.maxRequested <
      (sm.clock.now p).timestamp.add sm.options.livenessInterval 0 :=
    h.clock.trans_lt (Timestamp.add_lt_add (sm.clock.lt_now p))
  have hreq : (md ⟨sm.requester, u⟩).maxRequested =
      (sm.clock.now p).timestamp.add sm.options.livenessInterval 0 := by
    rw [humd]
    exact max_eq_right hlt.le
  have hsees : ∀ s ss, sm.requester.state s = some ss ∨
      getSupportFrom ⟨sm.requester, u⟩ s = some ss →
      sm.requester.state s = some ss := by
    rintro s ss (hs | hs)
    · exact hs
    · rw [getSupportFrom_of_none hf] at hs
      exact hs
  refine ⟨{ sm with
    clock := sm.clock.now p
    pending := { sm.pending with
      commits := metaCommits (if u.metadata = {} then none else some u.metadata)
      requester := u
      out } }, ?_, ?_, rfl, fun s _ ss hs => .inl (.inl (hsees s ss hs))⟩
  · unfold SupportManager.sendHeartbeats getHeartbeatsToSend
    simp only [hu, hout, write_ok hm, bind, Except.bind, pure, Except.pure]
  exact { h with
    rest := rest_metaCommits hm hdisk (fun r => (hstate r).trans (hfor r).symm) h.shape
    requesterMeta := hm
    metaPos := by
      show 1 ≤ (md ⟨sm.requester, u⟩).maxEpoch
      rw [humd]
      exact h.metaPos
    requested := by
      intro s ss hs
      obtain ⟨h1, h2, h3, h4, h5⟩ := h.requested s ss (.inl (hsees s ss hs))
      refine ⟨h1, h2, ?_, h4, h5⟩
      show ss.epoch ≤ (md ⟨sm.requester, u⟩).maxEpoch
      rw [humd]
      exact h3
    present := by
      intro s hs
      change s ∈ u.supportFrom at hs
      rw [hf] at hs
      exact absurd hs Std.ExtTreeMap.not_mem_empty
    progress := fun s ss hs => .inl (hsees s ss (.inr hs))
    clock := hreq.le
    outAnswer := by
      intro m hm' ht
      obtain ⟨s, ss, -, rfl⟩ := hmem m hm'
      cases ht
    outBeat := by
      intro m hm' ht
      obtain ⟨s, ss, hs, rfl⟩ := hmem m hm'
      have hr := h.requested s ss (.inl hs)
      refine ⟨h.storeID, rfl, ?_, ⟨ss, ?_, rfl⟩, hf, fun m' hm' ht' hs' => ?_⟩
      · show {} < (md ⟨sm.requester, u⟩).maxRequested
        rw [hreq]
        exact (Timestamp.empty_le _).trans_lt hlt
      · show sm.requester.state ss.target = some ss
        rw [hr.target]
        exact hs
      · show m'.expiration < (md ⟨sm.requester, u⟩).maxRequested
        have hle := (hasks.bounds m' hm' ht' hs').2.2.2
        rw [hdisk, ← hmd] at hle
        rw [hreq]
        exact hle.trans_lt hlt }

end Running

/-! ## Withdrawals -/

/-- The commits of a withdrawal, one a store. -/
theorem rest_withdrawals {md : RequesterMeta} {f : StoreIdent → SupportState} {now : Timestamp} :
    ∀ {l : List SupportState} {d : Disk}, l.Pairwise (fun a b => a.target ≠ b.target) →
    (∀ ss ∈ l, (d.state ss.target).expiration ≤ now ∧ ss.epoch = (d.state ss.target).epoch + 1 ∧
      f ss.target = ss) → (∀ r, Shape sent id r (f r)) → (∀ r, Shape sent id r (d.state r)) →
    d.requesterMeta = md → (∀ r, (∀ ss ∈ l, ss.target ≠ r) → d.state r = f r) →
    Rest sent id md f d
      (l.map fun ss => { writes := [.supportFor ss], withdrawal := some now })
  | [], d, _, _, _, _, hmd, hold => ⟨hmd, fun r => hold r fun ss hss => by cases hss⟩
  | a :: l, d, hl, hnew, hf, hshape, hmd, hold => by
    obtain ⟨hne, hl⟩ := pairwise_cons.mp hl
    obtain ⟨hle, hep, hfa⟩ := hnew a mem_cons_self
    have hstate : ∀ r, (d.commit { writes := [.supportFor a], withdrawal := some now }).state r =
        if r = a.target then a else d.state r := fun r => Disk.write_supportFor_state a r
    have hshape' : ∀ r, Shape sent id r
        ((d.commit { writes := [.supportFor a], withdrawal := some now }).state r) := by
      intro r
      rw [hstate]
      split_ifs with heq
      · subst heq
        have hshape' := hf a.target
        rw [hfa] at hshape'
        exact hshape'
      · exact hshape r
    refine ⟨⟨fun r => ?_, RequesterMeta.le_refl _, subset_cons_self _ _, fun w hw => ?_,
      hshape'⟩, ?_⟩
    · rw [hstate]
      split_ifs with heq
      · subst heq
        refine ⟨by omega, .inr (.inr ⟨now, hle, ?_⟩)⟩
        have hprev : a.epoch - 1 = (d.state a.target).epoch := by omega
        rw [← hprev]
        exact mem_cons_self
      · exact .refl _
    · rcases mem_cons.mp hw with rfl | hw
      · rw [hstate, if_pos rfl]
        exact .inr (Int.sub_one_lt_of_le le_rfl)
      · exact .inl hw
    · refine rest_withdrawals hl (fun ss hss => ?_) hf hshape' hmd fun r hr => ?_
      · rw [hstate, if_neg (hne ss hss).symm]
        exact hnew ss (mem_cons_of_mem _ hss)
      · rw [hstate]
        split_ifs with heq
        · subst heq
          exact hfa.symm
        · refine hold r fun ss hss => ?_
          rcases mem_cons.mp hss with rfl | hss
          · exact Ne.symm heq
          · exact hr ss hss

/-- Support that has not been withdrawn yet is owed to a heartbeat of its epoch. -/
theorem Shape.withdraw {r : StoreIdent} {a b : SupportState} (h : Shape sent id r a)
    (hx : a.expiration ≠ {}) (hep : b.epoch = a.epoch + 1) (hb : b.expiration = {}) :
    Shape sent id r b := by
  rcases h with ⟨-, he⟩ | ⟨m, hm, hbeat, ⟨heq, -⟩ | ⟨-, he⟩⟩
  · exact absurd he hx
  · exact .inr ⟨m, hm, hbeat, .inr ⟨by omega, hb⟩⟩
  · exact absurd he hx

theorem Running.withdrawSupport (h : Running sent id d sm) (hp : sm.pending = {}) (p : Nat) :
    ∃ sm', sm.withdrawSupport p = .ok sm' ∧ Running sent id d sm' ∧ Follows sent id sm sm' := by
  obtain ⟨hmd, hget, hfor, hdisk, hstate⟩ := h.idle hp
  by_cases hlt : (sm.clock.now p).timestamp < sm.minWithdrawalTS
  · refine ⟨{ sm with clock := sm.clock.now p }, ?_, h.setClock (sm.clock.lt_now p).le,
      rfl, fun _ _ _ hs => .inl hs⟩
    unfold SupportManager.withdrawSupport
    simp only [hlt, if_true]
    rfl
  have hnone : sm.ssfu.inProgress.supportFor = ∅ := by
    unfold ssfu
    rw [hp]
  obtain ⟨⟨_, u⟩, hu, hc, hm, hnew⟩ := withdrawSupport_ok h.supporterMeta
    hnone (sm.clock.now p).timestamp
  obtain rfl : _ = sm.supporter := hc
  -- Every state in progress is that of a store whose support has expired.
  have hspec : ∀ (r : StoreIdent) (ss : SupportState), u.supportFor[r]? = some ss →
      (sm.supporter.state r).expiration ≠ {} ∧
      (sm.supporter.state r).expiration ≤ (sm.clock.now p).timestamp ∧
      ss = { sm.supporter.state r with
        epoch := (sm.supporter.state r).epoch + 1, expiration := {} } := by
    intro r ss hss
    have hwith := (hnew r).symm.trans hss
    change withdrawn _ sm.supporter.supportFor[r]? = some ss at hwith
    unfold SupporterState.state
    cases hr : sm.supporter.supportFor[r]? with
    | none =>
      rw [hr] at hwith
      cases hwith
    | some old =>
      rw [hr] at hwith
      unfold withdrawn at hwith
      dsimp only [Option.bind_some] at hwith
      split_ifs at hwith with hch
      cases hwith
      exact maybeWithdrawSupport_spec hch
  have htarget : ∀ (r : StoreIdent) (ss : SupportState), u.supportFor[r]? = some ss →
      ss.target = r := by
    intro r ss hss
    rw [(hspec r ss hss).2.2]
    exact h.target r
  have hstate' := state_eq ⟨sm.supporter, u⟩
  have hshape : ∀ r, Shape sent id r (state ⟨sm.supporter, u⟩ r) := by
    intro r
    have hold := h.shape r
    rw [hfor] at hold
    rw [hstate']
    cases hr : u.supportFor[r]? with
    | none => exact hold
    | some ss =>
      obtain ⟨hx, -, rfl⟩ := hspec r ss hr
      exact hold.withdraw hx rfl rfl
  have hwithdrawals : ∀ d' : Disk, (∀ r, d'.state r = sm.supporter.state r) →
      d'.requesterMeta = sm.rsfu.md →
      Rest sent id sm.rsfu.md (state ⟨sm.supporter, u⟩) d'
        ((u.supportFor.toList.map (·.2)).map fun ss =>
          { writes := [.supportFor ss], withdrawal := some (sm.clock.now p).timestamp }) := by
    intro d' hd' hmd'
    refine rest_withdrawals (pairwise_states htarget) (fun ss hss => ?_) hshape
      (fun r => ?_) hmd' fun r hr => ?_
    · obtain ⟨e, he, rfl⟩ := mem_map.mp hss
      have hsome := Std.ExtTreeMap.mem_toList_iff_getElem?_eq_some.mp he
      obtain ⟨-, hle, heq⟩ := hspec _ _ hsome
      rw [htarget _ _ hsome, hd']
      refine ⟨hle, by rw [heq], ?_⟩
      rw [hstate', hsome]
      rfl
    · rw [hd', ← hfor]
      exact h.shape r
    · rw [hd', hstate']
      cases hsome : u.supportFor[r]? with
      | none => rfl
      | some ss =>
        have hmem := Std.ExtTreeMap.mem_toList_iff_getElem?_eq_some.mpr hsome
        exact absurd (htarget r ss hsome) (hr ss (mem_map.mpr ⟨_, hmem, rfl⟩))
  have hnil : ∀ {P : Message → Prop}, ∀ m ∈ sm.pending.out, P m := by
    intro P m hm'
    rw [hp] at hm'
    cases hm'
  refine ⟨{ sm with
    clock := sm.clock.now p
    pending := { sm.pending with
      commits := ((if u.metadata = {} then none else some u.metadata).toList.map fun m =>
          { writes := [.supporterMeta m] }) ++
        (u.supportFor.toList.map (·.2)).map fun ss =>
          { writes := [.supportFor ss], withdrawal := some (sm.clock.now p).timestamp }
      supporter := u } }, ?_, ?_, rfl, fun _ _ _ hs => .inl hs⟩
  · unfold SupportManager.withdrawSupport
    simp only [hlt, if_false, hu, write_ok hm, bind, Except.bind]
    rfl
  exact { h with
    target' := by
      intro r
      show (state ⟨sm.supporter, u⟩ r).target = r
      rw [hstate']
      cases hr : u.supportFor[r]? with
      | none => exact h.target r
      | some ss => exact htarget r ss hr
    shape := hshape
    supporterMeta := hm
    rest := by
      by_cases he : u.metadata = {}
      · rw [if_pos he]
        exact hwithdrawals d hstate (hdisk.trans hmd.symm)
      · rw [if_neg he]
        refine ⟨⟨fun r => .refl _, RequesterMeta.le_refl _, Subset.refl _,
          fun w hw => .inl hw, fun r => ?_⟩, hwithdrawals _ hstate (hdisk.trans hmd.symm)⟩
        show Shape sent id r (d.state r)
        rw [hstate, ← hfor]
        exact h.shape r
    clock := h.clock.trans (Timestamp.add_le_add (sm.clock.lt_now p).le)
    outAnswer := hnil
    outBeat := hnil }

end Cockroach.StoreLiveness
