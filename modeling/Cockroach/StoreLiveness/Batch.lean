import Cockroach.StoreLiveness.Steps

/-!
# Batches of messages

A manager handles the messages of its queue one after the other and commits what
comes of it as a whole. `Batch` is what holds between two messages; the one panic
that is left is over a response from a store that the manager does not know
(`Running.handleMessages`).
-/

namespace Cockroach.StoreLiveness

open Lib Hlc RequesterStateForUpdate SupporterStateForUpdate SupportManager

variable {sent : List Message} {id : StoreIdent} {d : Disk} {sm : SupportManager}

/-- The update that a batch of messages has collected so far. -/
structure Batch (sent : List Message) (id : StoreIdent) (d : Disk) (sm : SupportManager)
    (u : RequesterStateForUpdate × SupporterStateForUpdate × List Message) : Prop where
  checkedIn : u.1.checkedIn = sm.requester
  requesterMeta : u.1.MetaOk
  metaPos : 1 ≤ u.1.md.maxEpoch
  maxRequested : u.1.md.maxRequested = sm.requester.metadata.maxRequested
  requested : ∀ s ss, u.1.getSupportFrom s = some ss → Requested sent id u.1.md s ss
  present : ∀ s ∈ u.1.inProgress.supportFrom, s ∈ sm.requester.supportFrom
  heard : ∀ s ss, u.1.getSupportFrom s = some ss →
    sm.Sees s ss ∨ ∃ m ∈ sent, m.IsAnswer s id ∧ m.epoch = ss.epoch
  checkedIn' : u.2.1.checkedIn = sm.supporter
  supporterMeta : u.2.1.inProgress.metadata = {}
  target : ∀ r, (u.2.1.state r).target = r
  shape : ∀ r, Shape sent id r (u.2.1.state r)
  kept : ∀ r, Kept sent d.withdrawn id r (sm.supporter.state r) (u.2.1.state r)
  out : ∀ m ∈ u.2.2, m.type = .heartbeatResp ∧ m.src = id ∧ Told sent id m.dst m.state ∧
    Kept sent d.withdrawn id m.dst m.state (u.2.1.state m.dst)

namespace Batch

variable {u : RequesterStateForUpdate × SupporterStateForUpdate × List Message} {msg : Message}

/-- A heartbeat is taken over or ignored, and answered with what is held then. -/
theorem heartbeat (h : Batch sent id d sm u) (hmsg : msg ∈ sent) (hb : msg.IsBeat msg.src id)
    {rm : RequesterMeta} (hasks : Asks sent msg.src rm) {E : Panic → Prop} :
    Sat (handleMessage u msg) E (Batch sent id d sm) := by
  unfold handleMessage
  rw [hb.1]
  refine Sat.bind ((handleHeartbeat_spec u.2.1 msg).mono ?_ fun _ h => h) ?_
  · rintro p ⟨hlt, hnot⟩
    exact absurd ((h.shape msg.src).lt_expiration hasks hmsg hb hlt) hnot
  rintro ⟨u', resp⟩ ⟨hc, hmeta, hother, hself, hresp⟩
  dsimp only at hc hmeta hother hself hresp
  subst hresp
  have hsame : ∀ r, r ≠ msg.src → u'.state r = u.2.1.state r := by
    intro r hr
    unfold state
    rw [hother r hr]
  have hkept : ∀ r, Kept sent d.withdrawn id r (u.2.1.state r) (u'.state r) := by
    intro r
    by_cases hr : r = msg.src
    · subst hr
      rcases hself with ⟨heq, -⟩ | ⟨heq, hle⟩
      · rw [heq]
        exact .refl _
      · rw [heq]
        exact .beat hmsg hb rfl rfl hle
    · rw [hsame r hr]
      exact .refl _
  have htold : Told sent id msg.src (u'.state msg.src) := by
    rcases hself with ⟨heq, hle⟩ | ⟨heq, -⟩
    · rw [heq]
      refine (h.shape msg.src).told hasks hmsg hb ?_
      rcases hle with hle | hle
      · exact hle.le
      · exact hle.1.le
    · rw [heq]
      exact ⟨msg, hmsg, hb, .inl ⟨rfl, rfl⟩⟩
  exact { h with
    checkedIn' := hc.trans h.checkedIn'
    supporterMeta := hmeta.trans h.supporterMeta
    target := by
      intro r
      by_cases hr : r = msg.src
      · subst hr
        rcases hself with ⟨heq, -⟩ | ⟨heq, -⟩ <;> rw [heq] <;> exact h.target _
      · rw [hsame r hr]
        exact h.target r
    shape := by
      intro r
      by_cases hr : r = msg.src
      · subst hr
        exact .inr htold
      · rw [hsame r hr]
        exact h.shape r
    kept := fun r => (h.kept r).trans (hkept r)
    out := by
      intro m hm
      rcases List.mem_append.mp hm with hm | hm
      · obtain ⟨ht, hs, htold, hk⟩ := h.out m hm
        exact ⟨ht, hs, htold, hk.trans (hkept m.dst)⟩
      · rw [List.mem_singleton.mp hm]
        exact ⟨rfl, hb.2.2, htold, le_rfl, .inl ⟨rfl, le_rfl⟩⟩ }

/-- A response of a store that is known prolongs the support or ends it; one of a
store that is not known always panics. -/
theorem response (h : Batch sent id d sm u) (hmsg : msg ∈ sent) (ha : msg.IsAnswer msg.src id)
    (htold : Told sent msg.src id msg.state) {rm : RequesterMeta} (hasks : Asks sent id rm) :
    Sat (handleMessage u msg) (fun _ => msg.src ∉ sm.requester.supportFrom)
      (Batch sent id d sm) := by
  obtain ⟨m, hm, hb, hshape⟩ := htold
  obtain ⟨hpos, hxpos, -⟩ := hasks.bounds m hm hb.1 hb.2.1
  change m.epoch = msg.epoch ∧ m.expiration = msg.expiration ∨
    m.epoch + 1 = msg.epoch ∧ msg.expiration = {} at hshape
  -- The epoch that is known bounds every epoch asked for.
  have hknown : ∀ ss, u.1.getSupportFrom msg.src = some ss → ss.epoch < msg.epoch →
      ss.epoch = msg.epoch - 1 ∧ msg.expiration = {} := by
    intro ss hss hlt
    have hle := (h.requested msg.src ss hss).asked m hm hb
    rcases hshape with ⟨heq, -⟩ | ⟨heq, hx⟩
    · omega
    · exact ⟨by omega, hx⟩
  unfold handleMessage
  rw [ha.1]
  refine Sat.bind ((handleHeartbeatResponse_spec h.requesterMeta
    (by have := h.metaPos; omega) msg).mono ?_ fun _ h => h) ?_
  · rintro p ⟨hlt, hor⟩
    cases hss : u.1.getSupportFrom msg.src with
    | none =>
      rw [getSupportFrom_eq, Option.or_eq_none_iff, h.checkedIn] at hss
      rw [RequesterState.mem_iff]
      exact not_not_intro hss.2
    | some ss =>
      rw [held, hss, Option.getD_some] at hlt hor
      obtain ⟨h1, h2⟩ := hknown ss hss hlt
      exact absurd hor (not_or_intro (not_not_intro h1) (not_not_intro h2))
  rintro u' ⟨hc, hm', hmd, hget⟩
  have hep : u.1.md.maxEpoch ≤ u'.md.maxEpoch := by
    rw [hmd]
    exact le_max_left _ _
  -- Nothing is ever taken over for a store that is not known.
  have hold : ∀ e : Int, e = msg.epoch ∨ e = msg.epoch - 1 ∧ msg.expiration = {} →
      (u.1.held msg.src).epoch = e →
      ∃ ss, u.1.getSupportFrom msg.src = some ss ∧ ss.epoch = e := by
    intro e he hold
    cases hss : u.1.getSupportFrom msg.src with
    | some ss =>
      rw [held, hss] at hold
      exact ⟨ss, rfl, hold⟩
    | none =>
      rw [held, hss] at hold
      change 0 = e at hold
      rcases he with he | ⟨he, hx⟩
      · rcases hshape with ⟨heq, -⟩ | ⟨heq, -⟩ <;> omega
      · rcases hshape with ⟨-, heq⟩ | ⟨heq, -⟩
        · rw [heq, hx] at hxpos
          exact absurd hxpos (lt_irrefl _)
        · omega
  -- Where something is taken over, the store was known and its epoch is the old one or the next.
  have hnew : ∀ ss' : SupportState, ((u.1.held msg.src).epoch = msg.epoch ∧
        ss'.epoch = msg.epoch ∧ ss'.expiration = msg.expiration ∨
      (u.1.held msg.src).epoch = msg.epoch - 1 ∧
        ss'.epoch = msg.epoch ∧ ss'.expiration = {} ∧ msg.expiration = {}) →
      ∃ old, u.1.getSupportFrom msg.src = some old ∧ old.epoch ≤ msg.epoch ∧
        ss'.epoch = msg.epoch ∧ (ss'.expiration = {} ∨ ss'.expiration = msg.expiration) := by
    rintro ss' (⟨ho, he, hx⟩ | ⟨ho, he, hx, hmx⟩)
    · obtain ⟨old, hold, hoe⟩ := hold _ (.inl rfl) ho
      exact ⟨old, hold, hoe.le, he, .inr hx⟩
    · obtain ⟨old, hold, hoe⟩ := hold _ (.inr ⟨rfl, hmx⟩) ho
      exact ⟨old, hold, by omega, he, .inl hx⟩
  exact { h with
    checkedIn := hc.trans h.checkedIn
    requesterMeta := hm'
    metaPos := h.metaPos.trans hep
    maxRequested := by
      rw [hmd]
      exact h.maxRequested
    requested := by
      intro s ss hs
      rcases hget s with ⟨heq, -⟩ | ⟨rfl, ss', hss', htarget, hcase⟩
      · rw [heq] at hs
        obtain ⟨h1, h2, h3, h4, h5⟩ := h.requested s ss hs
        exact ⟨h1, h2, h3.trans hep, h4, h5⟩
      · rw [hss'] at hs
        cases hs
        have hle : msg.epoch ≤ u'.md.maxEpoch := by
          rw [hmd]
          exact le_max_right _ _
        obtain ⟨old, hold, hoe, he, hx⟩ := hnew ss hcase
        rw [held, hold] at htarget
        obtain ⟨h1, h2, -, -, h5⟩ := h.requested _ old hold
        refine ⟨htarget.trans h1, by omega, he ▸ hle, ?_, ?_⟩
        · exact hx.imp_right fun hx => ⟨msg, hmsg, ha, he.symm, hx.symm⟩
        · intro m' hm' hb'
          have := h5 m' hm' hb'
          omega
    present := by
      intro s hs
      rcases hget s with ⟨-, himp⟩ | ⟨rfl, ss', -, -, hcase⟩
      · exact h.present s (himp hs)
      · obtain ⟨old, hold, -⟩ := hnew ss' hcase
        rw [getSupportFrom_eq, Option.or_eq_some_iff, h.checkedIn] at hold
        rcases hold with hold | ⟨-, hold⟩
        · exact h.present _ (RequesterState.mem_of_state hold)
        · exact RequesterState.mem_of_state hold
    heard := by
      intro s ss hs
      rcases hget s with ⟨heq, -⟩ | ⟨rfl, ss', hss', -, hcase⟩
      · rw [heq] at hs
        exact h.heard s ss hs
      · rw [hss'] at hs
        cases hs
        obtain ⟨-, -, -, he, -⟩ := hnew ss hcase
        exact .inr ⟨msg, hmsg, ha, he.symm⟩ }

/-- Before the first message. -/
theorem init (h : Running sent id d sm) (hp : sm.pending = {}) :
    Batch sent id d sm (sm.rsfu, sm.ssfu, []) := by
  obtain ⟨hmd, -, hfor, -, -⟩ := h.idle hp
  refine { h with
    checkedIn := rfl
    maxRequested := by rw [hmd]
    requested := fun s ss hs => h.requested s ss (.inr hs)
    heard := fun s ss hs => .inl (.inr hs)
    checkedIn' := rfl
    supporterMeta := ?_
    target := h.target'
    kept := fun r => ?_
    out := nofun }
  · show sm.pending.supporter.metadata = {}
    rw [hp]
  · rw [hfor]
    exact .refl _

end Batch

/-- A batch of messages is committed as a whole. It panics only over a response from
a store that is not known. -/
theorem Running.handleMessages (h : Running sent id d sm) (hp : sm.pending = {})
    (hasks : ∀ r, ∃ rm, Asks sent r rm)
    (htold : ∀ m ∈ sent, m.IsAnswer m.src m.dst → Told sent m.src m.dst m.state)
    {msgs : List Message} (hmsgs : ∀ m ∈ msgs, m ∈ sent ∧ m.dst = id) :
    Sat (sm.handleMessages msgs)
      (fun _ => ∃ m ∈ msgs, m.type = .heartbeatResp ∧ m.src ∉ sm.requester.supportFrom)
      fun sm' => Running sent id d sm' ∧ Follows sent id sm sm' := by
  obtain ⟨hmd, hget, hfor, hdisk, hstate⟩ := h.idle hp
  unfold SupportManager.handleMessages
  refine Sat.bind (Sat.foldlM (I := Batch sent id d sm) ?_ (.init h hp)) ?_
  · intro u m hm hu
    obtain ⟨hsent, hdst⟩ := hmsgs m hm
    cases ht : m.type with
    | heartbeat =>
      obtain ⟨rm, hrm⟩ := hasks m.src
      exact hu.heartbeat hsent ⟨ht, rfl, hdst⟩ hrm
    | heartbeatResp =>
      obtain ⟨rm, hrm⟩ := hasks id
      have htold' := htold m hsent ⟨ht, rfl, rfl⟩
      rw [hdst] at htold'
      exact (hu.response hsent ⟨ht, rfl, hdst⟩ htold' hrm).mono (fun _ hn => ⟨m, hm, ht, hn⟩)
        fun _ h => h
  rintro ⟨⟨_, u⟩, ⟨_, v⟩, out⟩ hb
  obtain rfl : _ = sm.requester := hb.checkedIn
  obtain rfl : _ = sm.supporter := hb.checkedIn'
  have hsm : MetaOk ⟨sm.supporter, v⟩ := fun hne => absurd hb.supporterMeta hne
  have hle := hb.requesterMeta.le_md
  dsimp only
  rw [write_ok hb.requesterMeta, write_ok hsm, if_pos hb.supporterMeta]
  have htarget : ∀ (r : StoreIdent) (ss : SupportState), v.supportFor[r]? = some ss →
      ss.target = r := by
    intro r ss hss
    have ht := hb.target r
    rw [state_eq, hss] at ht
    exact ht
  -- What the commit leaves on disk.
  have hcommit : ∀ d' : Disk, d'.requesterMeta = md ⟨sm.requester, u⟩ →
      (∀ r, d'.state r = d.state r) → ∀ d'' : Disk, d''.withdrawn = d.withdrawn →
      d''.requesterMeta = (((v.supportFor.toList.map (·.2)).map
        Write.supportFor).foldl Disk.write d').requesterMeta →
      (∀ r, d''.state r = (((v.supportFor.toList.map (·.2)).map
        Write.supportFor).foldl Disk.write d').state r) →
      Better sent id d d'' ∧ d''.requesterMeta = md ⟨sm.requester, u⟩ ∧
        ∀ r, d''.state r = state ⟨sm.supporter, v⟩ r := by
    intro d' hmd' hst' d'' hlog'' hmd'' hst''
    obtain ⟨hrm, hwr⟩ := Disk.writeMap htarget d'
    rw [hrm, hmd'] at hmd''
    have hst : ∀ r, d''.state r = state ⟨sm.supporter, v⟩ r := by
      intro r
      rw [hst'', hwr, hst', hstate, state_eq]
    refine ⟨⟨fun r => ?_, ?_, ?_, fun w hw => ?_, fun r => ?_⟩, hmd'', hst⟩
    · rw [hst, hlog'', hstate]
      exact hb.kept r
    · rw [hmd'', hdisk]
      exact hle
    · rw [hlog'']
      exact List.Subset.refl _
    · rw [hlog''] at hw
      exact .inl hw
    · rw [hst]
      exact hb.shape r
  refine (?_ : Running sent id d _ ∧ Follows sent id sm _)
  refine ⟨?_, rfl, fun s _ ss hs => ?_⟩
  rotate_left
  · rcases hs with hs | hs
    · exact .inl (.inl hs)
    · exact hb.heard s ss hs
  exact { h with
    target' := hb.target
    shape := hb.shape
    supporterMeta := hsm
    rest := by
      by_cases he : u.metadata = {}
      · rw [if_pos he]
        refine hcommit d ?_ (fun _ => rfl) _ rfl rfl fun _ => rfl
        unfold md
        rw [if_neg (not_not_intro he)]
        exact hdisk
      · rw [if_neg he]
        refine hcommit (d.write (.requesterMeta u.metadata)) ?_ (fun _ => rfl) _ rfl rfl
          fun _ => rfl
        unfold md
        rw [if_pos he]
        rfl
    requesterMeta := hb.requesterMeta
    metaPos := hb.metaPos
    requested := by
      rintro s ss (hs | hs)
      · obtain ⟨h1, h2, h3, h4, h5⟩ := h.requested s ss (.inl hs)
        rw [hmd] at h3
        exact ⟨h1, h2, h3.trans hle.1, h4, h5⟩
      · exact hb.requested s ss hs
    present := hb.present
    progress := by
      intro s ss hs
      refine (hb.heard s ss hs).imp_left ?_
      rintro (hold | hold)
      · exact hold
      · exact (hget s).symm.trans hold
    clock := by
      show (md ⟨sm.requester, u⟩).maxRequested ≤ _
      rw [hb.maxRequested, ← hmd]
      exact h.clock
    outAnswer := fun m hm _ => (hb.out m hm).2
    outBeat := by
      intro m hm ht
      rw [(hb.out m hm).1] at ht
      cases ht }

end Cockroach.StoreLiveness
