import Cockroach.StoreLiveness.Batch

/-!
# Whole runs

The rest of an update (its commits, the two check-ins and the sending), restarts,
and with them every action of a store: `Store.act_inv`. `Cluster.Run.inv` is the
invariant of every run.
-/

namespace Cockroach.StoreLiveness

open Lib Hlc RequesterStateForUpdate List SupporterStateForUpdate SupportManager

variable {sent : List Message} {id : StoreIdent} {d : Disk} {sm : SupportManager}

/-- What an action does to a store: its disk gets no worse, what its supporter reports
is what it was or what is on disk, and what its requester sees and asks for is what it
saw or was told. -/
structure Moves (sent : List Message) (id : StoreIdent) (st st' : Store) (out : List Message) :
    Prop where
  disk : Better sent id st.disk st'.disk
  supporter : ∀ sm', st'.manager = some sm' →
    (∃ sm, st.manager = some sm ∧ sm'.supporter = sm.supporter) ∨
      ∀ r, sm'.supporter.state r = st'.disk.state r
  requester : ∀ sm sm', st.manager = some sm → st'.manager = some sm' →
    ∀ s ∈ sm.requester.supportFrom, ∀ ss, sm'.Sees s ss →
      sm.Sees s ss ∨ ∃ m ∈ sent, m.IsAnswer s id ∧ m.epoch = ss.epoch
  out : ∀ m ∈ out, m.type = .heartbeat →
    ∃ sm ss, st.manager = some sm ∧ sm.Sees m.dst ss ∧ ss.epoch = m.epoch

theorem Better.refl (h : ∀ r, Shape sent id r (d.state r)) : Better sent id d d :=
  ⟨fun _ => .refl _, RequesterMeta.le_refl _, Subset.refl _, fun _ hw => .inl hw, h⟩

/-- An action that sends nothing. -/
theorem Follows.moves {sm' : SupportManager} {d' : Disk} (h : Follows sent id sm sm')
    (hd : Better sent id d d') : Moves sent id ⟨d, some sm⟩ ⟨d', some sm'⟩ [] where
  disk := hd
  supporter := by
    rintro _ ⟨⟩
    exact .inl ⟨sm, rfl, h.supporter⟩
  requester := by
    rintro _ _ ⟨⟩ ⟨⟩
    exact h.requester
  out m hm := by cases hm

/-! ## The rest of an update -/

theorem Asks.mono_meta {rm rm' : RequesterMeta} (h : Asks sent id rm) (hle : rm ≤ rm') :
    Asks sent id rm' := by
  refine ⟨fun m hm ht hs => ?_, h.ordered⟩
  obtain ⟨h1, h2, h3, h4⟩ := h.bounds m hm ht hs
  exact ⟨h1, h2, h3.trans hle.1, h4.trans hle.2⟩

namespace StoreInv

/-- An action that leaves the disk. -/
theorem keep {o : Option SupportManager} (h : StoreInv sent id ⟨d, o⟩) (hr : Running sent id d sm) :
    StoreInv sent id ⟨d, some sm⟩ := by
  refine { h with running := ?_ }
  rintro _ ⟨⟩
  exact hr

/-- A commit reaches the disk. -/
theorem commit (h : StoreInv sent id ⟨d, some sm⟩) {c : Commit} {cs : List Commit}
    (hc : sm.pending.commits = c :: cs) :
    StoreInv sent id ⟨d.commit c,
        some { sm with pending := { sm.pending with commits := cs } }⟩ ∧
      Moves sent id ⟨d, some sm⟩ ⟨d.commit c,
        some { sm with pending := { sm.pending with commits := cs } }⟩ [] := by
  have hr := h.running sm rfl
  have hrest := hr.rest
  rw [hc] at hrest
  obtain ⟨hbetter, hrest⟩ := hrest
  have hlog : ∀ {r : StoreIdent} {a b : SupportState}, Kept sent d.withdrawn id r a b →
      Kept sent (d.commit c).withdrawn id r a b :=
    fun hk => hk.mono (Subset.refl _) hbetter.log
  refine ⟨?_, Follows.moves ⟨rfl, fun s _ ss hs => .inl hs⟩ hbetter⟩
  constructor
  case pos => exact h.pos.trans hbetter.md.1
  case asks => exact h.asks.mono_meta hbetter.md
  case shape => exact hbetter.shape
  case passed =>
    intro w hw
    rcases hbetter.passed w hw with hw | hlt
    · exact (h.passed w hw).trans_le (hbetter.kept w.target).epoch
    · exact hlt
  case answers =>
    intro m hm ha
    obtain ⟨htold, hkept⟩ := h.answers m hm ha
    exact ⟨htold, (hlog hkept).trans (hbetter.kept m.dst)⟩
  case running =>
    rintro _ ⟨⟩
    exact { hr with
      behind := fun r => (hlog (hr.behind r)).trans (hbetter.kept r)
      answered := fun m hm ha => hlog (hr.answered m hm ha)
      rest := hrest
      metaDisk := RequesterMeta.le_trans hr.metaDisk hbetter.md
      outAnswer := fun m hm ht => by
        obtain ⟨hsrc, htold, hkept⟩ := hr.outAnswer m hm ht
        exact ⟨hsrc, htold, hlog hkept⟩ }

/-- The requester's update is checked in: every store in it is still known. -/
theorem checkInRequester (h : Running sent id d sm) (hc : sm.pending.commits = []) :
    Sat sm.rsfu.checkInUpdate (fun _ => False) fun rs =>
      Running sent id d
          { sm with requester := rs, pending := { sm.pending with requester := {} } } ∧
        Follows sent id sm
          { sm with requester := rs, pending := { sm.pending with requester := {} } } := by
  have hrest := h.rest
  rw [hc] at hrest
  refine (checkInUpdate_spec h.requesterMeta).mono ?_ ?_
  · rintro p ⟨s, hs, hnot⟩
    exact hnot (h.present s hs)
  rintro rs ⟨hmeta, hmem, hstate⟩
  have hmd : (rsfu { sm with
      requester := rs, pending := { sm.pending with requester := {} } }).md = sm.rsfu.md :=
    (md_empty rs).trans hmeta
  have hget := getSupportFrom_empty rs
  have hsees : ∀ s ss, rs.state s = some ss ∨
      getSupportFrom ⟨rs, {}⟩ s = some ss →
      sm.rsfu.getSupportFrom s = some ss := by
    intro s ss hs
    rw [← hstate]
    rcases hs with hs | hs
    · exact hs
    · exact (hget s).symm.trans hs
  refine ⟨?_, rfl, fun s _ ss hs => .inl (.inr (hsees s ss hs))⟩
  exact { h with
    rest := by
      rw [hmd]
      exact h.rest
    requesterMeta := fun hne => absurd rfl hne
    metaDisk := by
      show rs.metadata ≤ d.requesterMeta
      rw [hmeta, hrest.1]
      exact RequesterMeta.le_refl _
    metaPos := by
      rw [hmd]
      exact h.metaPos
    requested := by
      intro s ss hs
      rw [hmd]
      exact h.requested s ss (.inr (hsees s ss hs))
    present := fun s hs => absurd hs Std.ExtTreeMap.not_mem_empty
    progress := fun s ss hs => .inl ((hget s).symm.trans hs)
    clock := by
      rw [hmd]
      exact h.clock
    outBeat := by
      intro m hm ht
      obtain ⟨hsrc, hx, hpos, ⟨ss, hss, hep⟩, hnone, hold⟩ := h.outBeat m hm ht
      rw [hmd]
      refine ⟨hsrc, hx, hpos, ⟨ss, ?_, hep⟩, rfl, hold⟩
      show rs.state m.dst = some ss
      rw [hstate, getSupportFrom_of_none hnone]
      exact hss }

/-- The supporter's update is checked in: it is what is on disk. -/
theorem checkInSupporter (h : StoreInv sent id ⟨d, some sm⟩) (hc : sm.pending.commits = []) :
    Sat sm.ssfu.checkInUpdate (fun _ => False) fun s =>
      Running sent id d
          { sm with supporter := s, pending := { sm.pending with supporter := {} } } ∧
        ∀ r, s.state r = d.state r := by
  have hr := h.running sm rfl
  have hrest := hr.rest
  rw [hc] at hrest
  obtain ⟨s, hs, hget⟩ := checkInUpdate_ok hr.supporterMeta
  rw [hs, sat_ok]
  have hstate : ∀ r, s.state r = sm.ssfu.state r := by
    intro r
    unfold SupporterState.state state
    rw [hget]
  have hstate' : (ssfu { sm with
      supporter := s, pending := { sm.pending with supporter := {} } }).state = sm.ssfu.state :=
    (state_empty s).trans (funext hstate)
  have hdisk : ∀ r, d.state r = s.state r := fun r => (hrest.2 r).trans (hstate r).symm
  refine ⟨?_, fun r => (hdisk r).symm⟩
  exact { hr with
    target := by
      intro r
      show (s.state r).target = r
      rw [hstate]
      exact hr.target' r
    target' := by
      rw [hstate']
      exact hr.target'
    shape := by
      rw [hstate']
      exact hr.shape
    supporterMeta := fun hne => absurd rfl hne
    behind := by
      intro r
      show Kept sent d.withdrawn id r (s.state r) (d.state r)
      rw [hdisk]
      exact .refl _
    answered := by
      intro m hm ha
      show Kept sent d.withdrawn id m.dst m.state (s.state m.dst)
      rw [← hdisk]
      exact (h.answers m hm ha).2
    rest := by
      rw [hstate']
      exact hr.rest
    outAnswer := by
      rw [hstate']
      exact hr.outAnswer }

/-- The messages of a finished update are sent. -/
theorem send {out : List Message}
    (h : StoreInv sent id ⟨d, some { sm with pending := { out := out } }⟩) :
    (∀ m ∈ out, m.src = id) ∧
      StoreInv (out ++ sent) id ⟨d, some { sm with pending := {} }⟩ ∧
      Moves sent id ⟨d, some { sm with pending := { out := out } }⟩
        ⟨d, some { sm with pending := {} }⟩ out := by
  have hr := h.running _ rfl
  obtain ⟨hmd, hstate⟩ := hr.rest
  obtain ⟨-, hget, hfor, -⟩ := hr.settled rfl
  have hsub : sent ⊆ out ++ sent := subset_append_right _ _
  have hlog : d.withdrawn ⊆ d.withdrawn := Subset.refl _
  have hrequested : ∀ s ss, sm.requester.state s = some ss →
      Requested (out ++ sent) id (md ⟨sm.requester, {}⟩) s ss := by
    intro s ss hs
    obtain ⟨h1, h2, h3, h4, h5⟩ := hr.requested s ss (.inl hs)
    refine ⟨h1, h2, h3, h4.imp_right ?_, fun m hm hb => ?_⟩
    · rintro ⟨m, hm, hrest⟩
      exact ⟨m, hsub hm, hrest⟩
    · rcases mem_append.mp hm with hm | hm
      · obtain ⟨-, -, -, ⟨ss', hss', hep⟩, -⟩ := hr.outBeat m hm hb.1
        rw [hb.2.2] at hss'
        cases hs.symm.trans hss'
        exact hep.symm.le
      · exact h5 m hm hb
  refine ⟨fun m hm => ?_, ?_, .refl h.shape, ?_, ?_, fun m hm ht => ?_⟩
  · cases ht : m.type with
    | heartbeat => exact (hr.outBeat m hm ht).1
    | heartbeatResp => exact (hr.outAnswer m hm ht).1
  rotate_left
  · rintro _ ⟨⟩
    exact .inl ⟨_, rfl, rfl⟩
  · rintro _ _ ⟨⟩ ⟨⟩
    exact fun s _ ss hs => .inl hs
  · obtain ⟨-, -, -, ⟨ss, hss, hep⟩, -⟩ := hr.outBeat m hm ht
    exact ⟨_, ss, rfl, .inl hss, hep⟩
  constructor
  case pos => exact h.pos
  case asks =>
    refine ⟨fun m hm ht hs => ?_, fun m hm m' hm' hb hb' hlt => ?_⟩
    · rcases mem_append.mp hm with hm | hm
      · obtain ⟨-, hx, hpos, ⟨ss, hss, hep⟩, -⟩ := hr.outBeat m hm ht
        obtain ⟨-, h2, h3, -, -⟩ := hr.requested _ ss (.inl hss)
        rw [hep] at h2 h3
        dsimp only
        rw [hmd]
        exact ⟨h2, hpos, h3, hx.le⟩
      · exact h.asks.bounds m hm ht hs
    · -- A round asks no store for an earlier epoch than the rounds before.
      rcases mem_append.mp hm with hm | hm
      · obtain ⟨-, -, -, ⟨ss, hss, hep⟩, -⟩ := hr.outBeat m hm hb.1
        have hle := (hrequested _ ss hss).asked m' hm' hb'
        omega
      · rcases mem_append.mp hm' with hm' | hm'
        · obtain ⟨-, -, -, -, -, hold⟩ := hr.outBeat m' hm' hb'.1
          exact hold m hm hb.1 hb.2.1
        · exact h.asks.ordered m hm m' hm' hb hb' hlt
  case shape => exact fun r => (h.shape r).mono hsub
  case passed => exact h.passed
  case answers =>
    intro m hm ha
    rcases mem_append.mp hm with hm | hm
    · obtain ⟨-, htold, hkept⟩ := hr.outAnswer m hm ha.1
      rw [← hstate] at hkept
      exact ⟨htold.mono hsub, hkept.mono hsub hlog⟩
    · obtain ⟨htold, hkept⟩ := h.answers m hm ha
      exact ⟨htold.mono hsub, hkept.mono hsub hlog⟩
  case running =>
    rintro _ ⟨⟩
    exact { hr with
      shape := fun r => (hr.shape r).mono hsub
      behind := fun r => (hr.behind r).mono hsub hlog
      answered := by
        intro m hm ha
        rcases mem_append.mp hm with hm | hm
        · obtain ⟨-, -, hkept⟩ := hr.outAnswer m hm ha.1
          rw [hfor] at hkept
          exact hkept.mono hsub hlog
        · exact (hr.answered m hm ha).mono hsub hlog
      rest := ⟨hmd, hstate⟩
      requested := by
        rintro s ss (hs | hs)
        · exact hrequested s ss hs
        · exact hrequested s ss ((hget s).symm.trans hs)
      progress := fun s ss hs => .inl ((hget s).symm.trans hs)
      outAnswer := fun m hm => by cases hm
      outBeat := fun m hm => by cases hm }

/-- The main goroutine goes on. -/
theorem advance (h : StoreInv sent id ⟨d, some sm⟩) :
    Sat (Store.advance d sm) (fun _ => False) fun r =>
      (∀ m ∈ r.2.2, m.src = id) ∧ StoreInv (r.2.2 ++ sent) id ⟨r.1, some r.2.1⟩ ∧
      Moves sent id ⟨d, some sm⟩ ⟨r.1, some r.2.1⟩ r.2.2 := by
  have hnil := forall_mem_nil fun m : Message => m.src = id
  unfold Store.advance
  dsimp only
  split
  next c cs hc => exact ⟨hnil, h.commit hc⟩
  next hc =>
    refine Sat.ite (fun _ => ?_) fun hreq => Sat.ite (fun _ => ?_) fun hsup => ?_
    · exact (checkInRequester (h.running sm rfl) hc).bind fun rs hr =>
        ⟨hnil, h.keep hr.1, hr.2.moves (.refl h.shape)⟩
    · refine (h.checkInSupporter hc).bind fun s hr => ⟨hnil, h.keep hr.1, .refl h.shape, ?_, ?_, ?_⟩
      · rintro _ ⟨⟩
        exact .inr hr.2
      · rintro _ _ ⟨⟩ ⟨⟩
        exact fun s _ ss hs => .inl hs
      · exact fun m hm => by cases hm
    · rw [not_not, Std.ExtTreeMap.isEmpty_iff] at hreq hsup
      have hp : sm.pending = { out := sm.pending.out } := by
        generalize sm.pending = p at hc hreq hsup
        obtain ⟨commits, ⟨rmd, rf⟩, ⟨smd, sf⟩, out⟩ := p
        obtain ⟨rfl, rfl⟩ := hreq
        obtain ⟨rfl, rfl⟩ := hsup
        obtain rfl : commits = [] := hc
        rfl
      have hsend := @send sent id d sm sm.pending.out
      rw [← hp] at hsend
      exact hsend h

/-! ## Restarts -/

/-- The manager of a process that has just read its disk. -/
theorem onRestart (h : StoreInv sent id ⟨d, none⟩) (options : Options) (maxOffset p : Nat)
    (sleep : List Nat) (p' : Nat) :
    Sat (SupportManager.onRestart id options maxOffset d p sleep p') (fun _ => False) fun o =>
      ∀ sm, o = some sm → Running sent id d sm ∧ ∀ r, sm.supporter.state r = d.state r := by
  unfold SupportManager.onRestart
  dsimp only
  have hnone : ∀ sm : SupportManager, none = some sm →
      Running sent id d sm ∧ ∀ r, sm.supporter.state r = d.state r := by
    intro sm hsm
    cases hsm
  cases Clock.updateAndCheckMaxOffset _ p d.readSupporter.metadata.maxWithdrawn with
  | none => exact hnone
  | some clock =>
    dsimp only
    cases hsleep : clock.sleepUntil d.readRequester.metadata.maxRequested sleep with
    | none => exact hnone
    | some clock' =>
      dsimp only
      have hok : MetaOk ⟨d.readRequester, {}⟩ := fun hne => absurd rfl hne
      have hmd : md ⟨d.readRequester, {}⟩ = d.requesterMeta := md_empty _
      obtain ⟨⟨_, u⟩, hu, hc, hm, hf, hmeta, hne⟩ :=
        incrementMaxEpoch_spec hok (by rw [hmd]; exact h.pos)
      obtain rfl : _ = d.readRequester := hc
      dsimp only at hf hmeta
      rw [hmd] at hmeta
      have hnew : md ⟨d.readRequester, u⟩ = u.metadata := if_pos hne
      have hstate : state ⟨d.readSupporter, {}⟩ = d.state := state_empty _
      -- A requester knows no store when it starts.
      have hunknown : ∀ s, d.readRequester.state s = none := by
        intro s
        unfold RequesterState.state Disk.readRequester
        rw [Std.ExtTreeMap.getElem?_empty]
        rfl
      have hunseen : ∀ {s ss}, getSupportFrom ⟨d.readRequester, u⟩ s ≠ some ss := by
        intro s ss hs
        rw [getSupportFrom_of_none hf, hunknown] at hs
        cases hs
      rw [hu]
      show Sat (write ⟨d.readRequester, u⟩ >>= _) _ _
      rw [write_ok hm]
      rintro _ ⟨⟩
      refine ⟨?_, fun _ => rfl⟩
      constructor
      case storeID => rfl
      case target => exact d.target
      case target' => exact hstate ▸ d.target
      case shape => exact hstate ▸ h.shape
      case supporterMeta => exact fun hne => absurd rfl hne
      case behind => exact fun r => .refl _
      case answered => exact fun m hm ha => (h.answers m hm ha).2
      case rest => exact hstate ▸ rest_metaCommits hm rfl (fun _ => rfl) h.shape
      case requesterMeta => exact hm
      case metaDisk => exact RequesterMeta.le_refl _
      case metaPos =>
        show 1 ≤ (md ⟨d.readRequester, u⟩).maxEpoch
        rw [hnew, hmeta]
        have := h.pos
        dsimp only at this ⊢
        omega
      case requested =>
        rintro s ss (hs | hs)
        · cases (hunknown s).symm.trans hs
        · exact absurd hs hunseen
      case present =>
        intro s hs
        change s ∈ u.supportFrom at hs
        rw [hf] at hs
        exact absurd hs Std.ExtTreeMap.not_mem_empty
      case progress => exact fun s ss hs => absurd hs hunseen
      case clock =>
        show (md ⟨d.readRequester, u⟩).maxRequested ≤
          (clock'.now p').timestamp.add options.livenessInterval 0
        rw [hnew, hmeta]
        exact ((Clock.le_sleepUntil hsleep).trans (clock'.lt_now p').le).trans
          (Timestamp.le_add _ _ _)
      case outAnswer =>
        intro m hm
        cases hm
      case outBeat =>
        intro m hm
        cases hm

end StoreInv

/-! ## Actions and runs -/

/-- Every response that a store is about to handle is from a store it knows. -/
def Store.Knows (st : Store) : Store.Act → Prop
  | .receive msgs => ∀ m ∈ msgs, m.type = .heartbeatResp →
      ∀ sm ∈ st.manager, m.src ∈ sm.requester.supportFrom
  | _ => True

instance (st : Store) : ∀ a, Decidable (st.Knows a)
  | .receive msgs => inferInstanceAs (Decidable (∀ m ∈ msgs, m.type = .heartbeatResp →
      ∀ sm ∈ st.manager, m.src ∈ sm.requester.supportFrom))
  | .start .. | .crash | .querySupportFrom _ | .readClock _ | .updateClock _ | .heartbeat ..
  | .withdraw _ | .removeIdle | .advance => isTrue trivial

/-- What the main goroutine begins. -/
theorem Running.main (h : Running sent id d sm) (hp : sm.pending = {})
    (hasks : ∀ r, ∃ rm, Asks sent r rm) (hown : Asks sent id d.requesterMeta)
    (htold : ∀ m ∈ sent, m.IsAnswer m.src m.dst → Told sent m.src m.dst m.state)
    {a : Store.Act} (hl : ∀ msgs, a = .receive msgs → ∀ m ∈ msgs, m ∈ sent ∧ m.dst = id) :
    Sat (Store.main sm a) (fun _ => ¬ Store.Knows ⟨d, some sm⟩ a) fun sm' =>
      Running sent id d sm' ∧ Follows sent id sm sm' := by
  cases a with
  | heartbeat enabled p =>
    obtain ⟨hadd, hfollows, hin⟩ := h.addStores hp hown
    cases enabled with
    | false => exact ⟨hadd, hfollows⟩
    | true =>
      obtain ⟨sm', hsm', hr, hf⟩ := hadd.sendHeartbeats hp hown p
      show Sat (sm.maybeAddStores.sendHeartbeats p) _ _
      rw [hsm']
      exact ⟨hr, hfollows.trans hin hf⟩
  | withdraw p =>
    obtain ⟨sm', hsm', hr, hf⟩ := h.withdrawSupport hp p
    show Sat (sm.withdrawSupport p) _ _
    rw [hsm']
    exact ⟨hr, hf⟩
  | removeIdle => exact h.removeIdle hp
  | receive msgs =>
    refine (h.handleMessages hp hasks htold (hl msgs rfl)).mono ?_ fun _ h => h
    rintro _ ⟨m, hm, ht, hnot⟩ hknows
    exact hnot (hknows m hm ht sm rfl)
  | _ => exact ⟨h, rfl, fun s _ ss hs => .inl hs⟩

/-- An action of a store. It panics only over a response from a store it does not know. -/
theorem StoreInv.act {st : Store} (h : StoreInv sent id st) (hasks : ∀ r, ∃ rm, Asks sent r rm)
    (htold : ∀ m ∈ sent, m.IsAnswer m.src m.dst → Told sent m.src m.dst m.state)
    {a : Store.Act} (hl : ∀ msgs, a = .receive msgs → ∀ m ∈ msgs, m ∈ sent ∧ m.dst = id) :
    Sat (st.act id a) (fun _ => ¬ st.Knows a) fun r =>
      (∀ m ∈ r.2, m.src = id) ∧ StoreInv (r.2 ++ sent) id r.1 ∧ Moves sent id st r.1 r.2 := by
  obtain ⟨d, manager⟩ := st
  have hnil := forall_mem_nil fun m : Message => m.src = id
  have hstopped : ∀ {mg : Option SupportManager}, Moves sent id ⟨d, mg⟩ ⟨d, none⟩ [] := by
    intro mg
    refine ⟨.refl h.shape, ?_, ?_, ?_⟩
    · rintro _ ⟨⟩
    · rintro _ _ - ⟨⟩
    · exact fun m hm => by cases hm
  have hnone : StoreInv sent id ⟨d, none⟩ := by
    refine { h with running := ?_ }
    rintro _ ⟨⟩
  cases manager with
  | none =>
    cases a with
    | start options maxOffset p sleep p' =>
      refine Sat.bind ((hnone.onRestart options maxOffset p sleep p').mono
        (fun _ hf => hf.elim) fun _ h => h) fun o ho => ⟨hnil, ?_, ?_⟩
      · exact { h with running := fun sm hsm => (ho sm hsm).1 }
      · refine ⟨.refl h.shape, fun sm hsm => .inr (ho sm hsm).2, ?_, ?_⟩
        · rintro _ _ ⟨⟩
        · exact fun m hm => by cases hm
    | _ => exact ⟨hnil, hnone, hstopped⟩
  | some sm =>
    have hr := h.running sm rfl
    have hsame : Moves sent id ⟨d, some sm⟩ ⟨d, some sm⟩ [] :=
      Follows.moves ⟨rfl, fun s _ ss hs => .inl hs⟩ (.refl h.shape)
    have hconcurrent : (∀ m ∈ ([] : List Message), m.src = id) ∧
        StoreInv sent id ⟨d, some (Store.concurrent sm a)⟩ ∧
        Moves sent id ⟨d, some sm⟩ ⟨d, some (Store.concurrent sm a)⟩ [] := by
      obtain ⟨hr', hf⟩ := hr.concurrent a
      exact ⟨hnil, h.keep hr', hf.moves (.refl h.shape)⟩
    have hmain : Sat (if sm.pending.idle = true then do
          let sm ← Store.main sm a
          return (({ disk := d, manager := some sm } : Store), ([] : List Message))
        else return (({ disk := d, manager := some sm } : Store), ([] : List Message)))
        (fun _ => ¬ Store.Knows ⟨d, some sm⟩ a) fun r =>
        (∀ m ∈ r.2, m.src = id) ∧ StoreInv (r.2 ++ sent) id r.1 ∧
          Moves sent id ⟨d, some sm⟩ r.1 r.2 := by
      refine Sat.ite (fun hp => ?_) fun _ => ⟨hnil, h, hsame⟩
      exact (hr.main (Pending.eq_of_idle hp) hasks h.asks htold hl).bind fun sm' hsm' =>
        ⟨hnil, h.keep hsm'.1, hsm'.2.moves (.refl h.shape)⟩
    cases a with
    | crash => exact ⟨hnil, hnone, hstopped⟩
    | advance =>
      refine Sat.bind (h.advance.mono (fun _ hf => hf.elim) fun _ h => h) ?_
      intro r hr
      exact hr
    | heartbeat | withdraw | removeIdle | receive => exact hmain
    | _ => exact hconcurrent

namespace Cluster

variable {C : Cluster → StoreIdent → Store.Act → Prop} {c c' : Cluster}

theorem inv_init : Inv {} := by
  intro id
  have hstate : ∀ r, ({} : Disk).state r = { target := r } := by
    intro r
    unfold Disk.state Disk.readSupporter SupporterState.state
    rw [Std.ExtTreeMap.getElem?_map, Std.ExtTreeMap.getElem?_empty]
    rfl
  have hnil : ∀ {P : Message → Prop}, ∀ m ∈ [], P m := forall_mem_nil _
  refine ⟨le_rfl, ⟨hnil, hnil⟩, fun r => ?_, fun w hw => ?_, hnil, fun sm hsm => ?_⟩
  · show Shape [] id r (({} : Disk).state r)
    rw [hstate]
    exact .inl ⟨rfl, rfl⟩
  · cases hw
  · cases hsm

/-- What an action does under the invariant. -/
theorem Inv.act (h : c.Inv) {a : Store.Act} (hl : c.Legal id a) :
    Sat ((c.store id).act id a) (fun _ => ¬ (c.store id).Knows a) fun r =>
      (c.after id r.1 r.2).Inv ∧ (∀ m ∈ r.2, m.src = id) ∧
        Moves c.sent id (c.store id) r.1 r.2 := by
  refine ((h id).act (fun r => ⟨_, (h r).asks⟩) (fun m hm ha => ?_) fun msgs hmsgs => ?_).mono
    (fun _ h => h) ?_
  · exact ((h m.src).answers m hm ha).1
  · subst hmsgs
    exact hl
  rintro ⟨st, out⟩ ⟨hsrc, hst, hmoves⟩
  refine ⟨fun id' => ?_, hsrc, hmoves⟩
  show StoreInv (out ++ c.sent) id' (Function.update c.store id st id')
  by_cases hid : id' = id
  · subst hid
    rw [Function.update_self]
    exact hst
  · rw [Function.update_of_ne hid]
    refine (h id').mono (subset_append_right _ _) fun m hm hs => ?_
    rcases mem_append.mp hm with hm | hm
    · exact absurd (hs.symm.trans (hsrc m hm)) hid
    · exact hm

theorem Step.inv (h : Step C c c') (hc : c.Inv) : c'.Inv := by
  cases h with
  | act hl _ ha => exact ((hc.act hl).elim ha).1

theorem Run.inv (h : Run C c c') (hc : c.Inv) : c'.Inv := by
  induction h with
  | refl => exact hc
  | tail _ hstep ih => exact hstep.inv ih

end Cluster

end Cockroach.StoreLiveness
