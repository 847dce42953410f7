import Cockroach.StoreLiveness.Updates

/-!
# What stores keep

The invariant of every run. A supporter moves on from an epoch only when it has
withdrawn its support at or after the expiration it had promised, or when the
requester itself has asked for a later epoch (`Kept`). What it holds for a
requester is the last heartbeat it took over, or the epoch after a heartbeat's
(`Told`). A requester asks for epochs that never go down and expirations that go
up with every round (`Asks`).

Memory is behind the disk, and the disk is on its way to the state that the
update in progress will check in (`Rest`).
-/

namespace Cockroach.StoreLiveness

open Lib Hlc

namespace Message

/-- A heartbeat of `r` to `s`. -/
def IsBeat (r s : StoreIdent) (m : Message) : Prop := m.type = .heartbeat ∧ m.src = r ∧ m.dst = s

/-- A response of `s` to `r`. -/
def IsAnswer (s r : StoreIdent) (m : Message) : Prop :=
  m.type = .heartbeatResp ∧ m.src = s ∧ m.dst = r

/-- The support that a response speaks of. -/
def state (m : Message) : SupportState := ⟨m.dst, m.epoch, m.expiration⟩

end Message

section Relations

variable (sent : List Message) (log : List Withdrawal) (s r : StoreIdent)

/-- The supporter `s` held `a` for `r` and may now hold `b`. -/
structure Kept (a b : SupportState) : Prop where
  epoch : a.epoch ≤ b.epoch
  promise : a.epoch = b.epoch ∧ a.expiration ≤ b.expiration ∨
    (∃ m ∈ sent, m.IsBeat r s ∧ a.epoch < m.epoch) ∨
    ∃ now, a.expiration ≤ now ∧ ⟨r, a.epoch, now⟩ ∈ log

/-- The supporter `s` owes what it holds to a heartbeat of `r`. -/
def Told (ss : SupportState) : Prop :=
  ∃ m ∈ sent, m.IsBeat r s ∧ (m.epoch = ss.epoch ∧ m.expiration = ss.expiration ∨
    m.epoch + 1 = ss.epoch ∧ ss.expiration = {})

/-- It has heard nothing yet, or owes what it holds to a heartbeat. -/
def Shape (ss : SupportState) : Prop := ss.epoch = 0 ∧ ss.expiration = {} ∨ Told sent s r ss

/-- What `r` has asked for so far, with the metadata `rm` on disk. -/
structure Asks (rm : RequesterMeta) : Prop where
  bounds : ∀ m ∈ sent, m.type = .heartbeat → m.src = r → 1 ≤ m.epoch ∧ {} < m.expiration ∧
    m.epoch ≤ rm.maxEpoch ∧ m.expiration ≤ rm.maxRequested
  ordered : ∀ m ∈ sent, ∀ m' ∈ sent, m.IsBeat r m.dst → m'.IsBeat r m.dst →
    m.epoch < m'.epoch → m.expiration < m'.expiration

end Relations

section Laws

variable {sent sent' : List Message} {log log' : List Withdrawal} {s r : StoreIdent}
  {a b c : SupportState}

namespace Kept

theorem refl (a : SupportState) : Kept sent log s r a a := ⟨le_rfl, .inl ⟨rfl, le_rfl⟩⟩

theorem trans (h : Kept sent log s r a b) (h' : Kept sent log s r b c) : Kept sent log s r a c := by
  refine ⟨h.epoch.trans h'.epoch, ?_⟩
  rcases h.promise with ⟨heq, hle⟩ | hbeat | hlog
  · rcases h'.promise with ⟨heq', hle'⟩ | ⟨m, hm, hb, hlt⟩ | ⟨now, hnow, hlog⟩
    · exact .inl ⟨heq.trans heq', hle.trans hle'⟩
    · exact .inr (.inl ⟨m, hm, hb, heq ▸ hlt⟩)
    · exact .inr (.inr ⟨now, hle.trans hnow, heq ▸ hlog⟩)
  · exact .inr (.inl hbeat)
  · exact .inr (.inr hlog)

theorem mono (h : Kept sent log s r a b) (hsent : sent ⊆ sent') (hlog : log ⊆ log') :
    Kept sent' log' s r a b := by
  refine ⟨h.epoch, h.promise.imp_right (Or.imp ?_ ?_)⟩
  · rintro ⟨m, hm, hb⟩
    exact ⟨m, hsent hm, hb⟩
  · rintro ⟨now, hnow, hin⟩
    exact ⟨now, hnow, hlog hin⟩

/-- A heartbeat of a later epoch, or one that prolongs the support. -/
theorem beat {m : Message} (hm : m ∈ sent) (hb : m.IsBeat r s) (hep : b.epoch = m.epoch)
    (hx : b.expiration = m.expiration)
    (hle : a.epoch < m.epoch ∨ a.epoch = m.epoch ∧ a.expiration ≤ m.expiration) :
    Kept sent log s r a b := by
  rcases hle with hlt | ⟨heq, hle⟩
  · exact ⟨hep ▸ hlt.le, .inr (.inl ⟨m, hm, hb, hlt⟩)⟩
  · exact ⟨(heq.trans hep.symm).le, .inl ⟨heq.trans hep.symm, hx ▸ hle⟩⟩

end Kept

theorem Told.mono (h : Told sent s r a) (hsent : sent ⊆ sent') : Told sent' s r a := by
  obtain ⟨m, hm, hb⟩ := h
  exact ⟨m, hsent hm, hb⟩

theorem Shape.mono (h : Shape sent s r a) (hsent : sent ⊆ sent') : Shape sent' s r a :=
  h.imp_right fun h => h.mono hsent

/-- A heartbeat for a later epoch has a later expiration than the one held. -/
theorem Shape.lt_expiration {rm : RequesterMeta} (h : Shape sent s r a) (hasks : Asks sent r rm)
    {m : Message} (hm : m ∈ sent) (hb : m.IsBeat r s) (hlt : a.epoch < m.epoch) :
    a.expiration < m.expiration := by
  obtain ⟨-, hpos, -⟩ := hasks.bounds m hm hb.1 hb.2.1
  rcases h with ⟨-, hx⟩ | ⟨m', hm', hb', ⟨hep, hx⟩ | ⟨-, hx⟩⟩
  · rw [hx]
    exact hpos
  · rw [← hx]
    refine hasks.ordered m' hm' m hm ⟨hb'.1, hb'.2.1, rfl⟩ ?_ (hep ▸ hlt)
    rw [hb'.2.2]
    exact hb
  · rw [hx]
    exact hpos

/-- What is held after a heartbeat is owed to one. -/
theorem Shape.told {rm : RequesterMeta} (h : Shape sent s r a) (hasks : Asks sent r rm)
    {m : Message} (hm : m ∈ sent) (hb : m.IsBeat r s) (hle : m.epoch ≤ a.epoch) :
    Told sent s r a := by
  obtain ⟨hpos, -⟩ := hasks.bounds m hm hb.1 hb.2.1
  rcases h with ⟨hep, -⟩ | h
  · omega
  · exact h

end Laws

/-- What a manager sees of the support from `s`, with or without the update in progress. -/
def SupportManager.Sees (sm : SupportManager) (s : StoreIdent) (ss : SupportState) : Prop :=
  sm.requester.state s = some ss ∨ sm.rsfu.getSupportFrom s = some ss

/-- What an action may do to the views of a running manager. Of a store that it knows
it sees nothing new but what it has been told. -/
structure Follows (sent : List Message) (id : StoreIdent) (sm sm' : SupportManager) : Prop where
  supporter : sm'.supporter = sm.supporter
  requester : ∀ s ∈ sm.requester.supportFrom, ∀ ss, sm'.Sees s ss →
    sm.Sees s ss ∨ ∃ m ∈ sent, m.IsAnswer s id ∧ m.epoch = ss.epoch

/-! ## The invariant -/

section Invariant

variable (sent : List Message) (id : StoreIdent)

/-- A commit makes the disk no worse. -/
structure Better (d d' : Disk) : Prop where
  kept : ∀ r, Kept sent d'.withdrawn id r (d.state r) (d'.state r)
  md : d.requesterMeta ≤ d'.requesterMeta
  log : d.withdrawn ⊆ d'.withdrawn
  passed : ∀ w ∈ d'.withdrawn, w ∈ d.withdrawn ∨ w.epoch < (d'.state w.target).epoch
  shape : ∀ r, Shape sent id r (d'.state r)

/-- The commits that are left bring the disk to the metadata `md` and to what `f`
says of each requester. -/
def Rest (md : RequesterMeta) (f : StoreIdent → SupportState) : Disk → List Commit → Prop
  | d, [] => d.requesterMeta = md ∧ ∀ r, d.state r = f r
  | d, c :: cs => Better sent id d (d.commit c) ∧ Rest md f (d.commit c) cs

/-- What a requester knows of the support of `s`. -/
structure Requested (md : RequesterMeta) (s : StoreIdent) (ss : SupportState) : Prop where
  target : ss.target = s
  pos : 1 ≤ ss.epoch
  le : ss.epoch ≤ md.maxEpoch
  heard : ss.expiration = {} ∨
    ∃ m ∈ sent, m.IsAnswer s id ∧ m.epoch = ss.epoch ∧ m.expiration = ss.expiration
  asked : ∀ m ∈ sent, m.IsBeat id s → m.epoch ≤ ss.epoch

/-- What a running manager keeps, over the disk `d`. -/
structure Running (d : Disk) (sm : SupportManager) : Prop where
  storeID : sm.storeID = id
  target : ∀ r, (sm.supporter.state r).target = r
  target' : ∀ r, (sm.ssfu.state r).target = r
  shape : ∀ r, Shape sent id r (sm.ssfu.state r)
  supporterMeta : sm.ssfu.MetaOk
  behind : ∀ r, Kept sent d.withdrawn id r (sm.supporter.state r) (d.state r)
  answered : ∀ m ∈ sent, m.IsAnswer id m.dst →
    Kept sent d.withdrawn id m.dst m.state (sm.supporter.state m.dst)
  rest : Rest sent id sm.rsfu.md sm.ssfu.state d sm.pending.commits
  requesterMeta : sm.rsfu.MetaOk
  metaDisk : sm.requester.metadata ≤ d.requesterMeta
  metaPos : 1 ≤ sm.rsfu.md.maxEpoch
  requested : ∀ s ss, sm.Sees s ss → Requested sent id sm.rsfu.md s ss
  present : ∀ s ∈ sm.pending.requester.supportFrom, s ∈ sm.requester.supportFrom
  progress : ∀ s ss, sm.rsfu.getSupportFrom s = some ss →
    sm.requester.state s = some ss ∨ ∃ m ∈ sent, m.IsAnswer s id ∧ m.epoch = ss.epoch
  clock : sm.rsfu.md.maxRequested ≤ sm.clock.timestamp.add sm.options.livenessInterval 0
  outAnswer : ∀ m ∈ sm.pending.out, m.type = .heartbeatResp → m.src = id ∧
    Told sent id m.dst m.state ∧ Kept sent d.withdrawn id m.dst m.state (sm.ssfu.state m.dst)
  outBeat : ∀ m ∈ sm.pending.out, m.type = .heartbeat → m.src = id ∧
    m.expiration = sm.rsfu.md.maxRequested ∧ {} < m.expiration ∧
    (∃ ss, sm.requester.state m.dst = some ss ∧ ss.epoch = m.epoch) ∧
    sm.pending.requester.supportFrom = ∅ ∧
    ∀ m' ∈ sent, m'.type = .heartbeat → m'.src = id → m'.expiration < m.expiration

/-- What a store keeps, running or not. -/
structure StoreInv (st : Store) : Prop where
  pos : 0 ≤ st.disk.requesterMeta.maxEpoch
  asks : Asks sent id st.disk.requesterMeta
  shape : ∀ r, Shape sent id r (st.disk.state r)
  passed : ∀ w ∈ st.disk.withdrawn, w.epoch < (st.disk.state w.target).epoch
  answers : ∀ m ∈ sent, m.IsAnswer id m.dst → Told sent id m.dst m.state ∧
    Kept sent st.disk.withdrawn id m.dst m.state (st.disk.state m.dst)
  running : ∀ sm, st.manager = some sm → Running sent id st.disk sm

end Invariant

/-- What every run keeps. -/
def Cluster.Inv (c : Cluster) : Prop := ∀ id, StoreInv c.sent id (c.store id)

section Frame

variable {sent sent' : List Message} {id : StoreIdent} {d d' : Disk} {sm : SupportManager}
  {md : RequesterMeta} {f : StoreIdent → SupportState}

theorem Better.mono (h : Better sent id d d') (hsent : sent ⊆ sent') : Better sent' id d d' :=
  { h with
    kept := fun r => (h.kept r).mono hsent (List.Subset.refl _)
    shape := fun r => (h.shape r).mono hsent }

theorem Rest.mono (hsent : sent ⊆ sent') : ∀ {cs : List Commit} {d : Disk},
    Rest sent id md f d cs → Rest sent' id md f d cs
  | [], _, h => h
  | _ :: _, _, h => ⟨h.1.mono hsent, Rest.mono hsent h.2⟩

theorem Requested.mono {s : StoreIdent} {ss : SupportState} (h : Requested sent id md s ss)
    (hsent : sent ⊆ sent') (hown : ∀ m ∈ sent', m.src = id → m ∈ sent) :
    Requested sent' id md s ss where
  target := h.target
  pos := h.pos
  le := h.le
  heard := by
    refine h.heard.imp_right ?_
    rintro ⟨m, hm, h⟩
    exact ⟨m, hsent hm, h⟩
  asked m hm hb := h.asked m (hown m hm hb.2.1) hb

/-- Other stores have sent something. -/
theorem Running.mono (h : Running sent id d sm) (hsent : sent ⊆ sent')
    (hown : ∀ m ∈ sent', m.src = id → m ∈ sent) : Running sent' id d sm :=
  { h with
    shape := fun r => (h.shape r).mono hsent
    behind := fun r => (h.behind r).mono hsent (List.Subset.refl _)
    answered := fun m hm ha => (h.answered m (hown m hm ha.2.1) ha).mono hsent (List.Subset.refl _)
    rest := h.rest.mono hsent
    requested := fun s ss hs => (h.requested s ss hs).mono hsent hown
    progress := by
      intro s ss hs
      refine (h.progress s ss hs).imp_right ?_
      rintro ⟨m, hm, h⟩
      exact ⟨m, hsent hm, h⟩
    outAnswer := by
      intro m hm ht
      obtain ⟨hsrc, htold, hkept⟩ := h.outAnswer m hm ht
      exact ⟨hsrc, htold.mono hsent, hkept.mono hsent (List.Subset.refl _)⟩
    outBeat := by
      intro m hm ht
      obtain ⟨hsrc, hx, hpos, hss, hnone, hold⟩ := h.outBeat m hm ht
      exact ⟨hsrc, hx, hpos, hss, hnone, fun m' hm' ht' hs' => hold m' (hown m' hm' hs') ht' hs'⟩ }

theorem StoreInv.mono {st : Store} (h : StoreInv sent id st) (hsent : sent ⊆ sent')
    (hown : ∀ m ∈ sent', m.src = id → m ∈ sent) : StoreInv sent' id st where
  pos := h.pos
  asks := by
    refine ⟨fun m hm ht hs => h.asks.bounds m (hown m hm hs) ht hs, ?_⟩
    intro m hm m' hm' hb hb'
    exact h.asks.ordered m (hown m hm hb.2.1) m' (hown m' hm' hb'.2.1) hb hb'
  shape r := (h.shape r).mono hsent
  passed := h.passed
  answers m hm ha := by
    obtain ⟨htold, hkept⟩ := h.answers m (hown m hm ha.2.1) ha
    exact ⟨htold.mono hsent, hkept.mono hsent (List.Subset.refl _)⟩
  running sm hsm := (h.running sm hsm).mono hsent hown

end Frame

end Cockroach.StoreLiveness
