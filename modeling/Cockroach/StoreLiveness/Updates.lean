import Cockroach.StoreLiveness.Manager

/-!
# What updates do

One lemma a function of the two state handlers: when it panics, and what it
leaves otherwise. An update is seen through the state it will leave once it is
checked in: `RequesterStateForUpdate.md` and `getSupportFrom` on one side,
`SupporterStateForUpdate.state` on the other.
-/

namespace Cockroach.StoreLiveness

open Lib Hlc List SupporterStateForUpdate Timestamp RequesterMeta
open Std hiding lt_of_le_of_ne not_lt

/-! ## Views -/

theorem getElem?_insert {β : Type} (m : ExtTreeMap StoreIdent β) (a id : StoreIdent) (v : β) :
    (m.insert a v)[id]? = if id = a then some v else m[id]? := by
  simp only [ExtTreeMap.getElem?_insert, StoreIdent.compare_eq, @eq_comm _ a id]

theorem pairwise_toList {β : Type} (m : ExtTreeMap StoreIdent β) :
    m.toList.Pairwise fun a b => a.1 ≠ b.1 :=
  m.distinct_keys_toList.imp fun h heq => h (StoreIdent.compare_eq.mpr heq)

/-- A loop over the entries of a map, each of which changes what is seen of its own store. -/
theorem sat_entries {ε σ β γ : Type} {m : ExtTreeMap StoreIdent β}
    {f : σ → StoreIdent × β → Except ε σ} {E : ε → Prop} {I : σ → Prop}
    {w : σ → StoreIdent → γ} {g : StoreIdent × β → γ → γ}
    (hf : ∀ s, ∀ e ∈ m.toList, I s → Sat (f s e) E fun s' => I s' ∧
      ∀ id, w s' id = if id = e.1 then g e (w s id) else w s id) {s : σ} (hs : I s) :
    Sat (m.toList.foldlM f s) E fun s' => I s' ∧
      ∀ id, w s' id = m[id]?.elim (w s id) fun v => g (id, v) (w s id) := by
  have hlist : ∀ (l : List (StoreIdent × β)) (s : σ), (∀ e ∈ l, e ∈ m.toList) →
      l.Pairwise (fun a b => a.1 ≠ b.1) → I s → Sat (l.foldlM f s) E fun s' => I s' ∧
        (∀ e ∈ l, w s' e.1 = g e (w s e.1)) ∧
        ∀ id, (∀ e ∈ l, e.1 ≠ id) → w s' id = w s id := by
    intro l
    induction l with
    | nil => exact fun s _ _ hs => ⟨hs, nofun, fun _ _ => rfl⟩
    | cons e l ih =>
      intro s hin hl hs
      obtain ⟨hne, hl⟩ := pairwise_cons.mp hl
      obtain ⟨he, hin⟩ := forall_mem_cons.mp hin
      rw [foldlM_cons]
      refine Sat.bind (hf s e he hs) fun s₁ hs₁ => (ih s₁ hin hl hs₁.1).imp ?_
      rintro s' ⟨hs', hnew, hold⟩
      refine ⟨hs', forall_mem_cons.mpr ⟨?_, fun e' he' => ?_⟩, fun id hid => ?_⟩
      · rw [hold _ fun e' he' => (hne e' he').symm, hs₁.2, if_pos rfl]
      · rw [hnew e' he', hs₁.2, if_neg (hne e' he').symm]
      · obtain ⟨hid₀, hid⟩ := forall_mem_cons.mp hid
        rw [hold id hid, hs₁.2, if_neg hid₀.symm]
  refine (hlist m.toList s (fun _ => id) (pairwise_toList m) hs).imp ?_
  rintro s' ⟨hs', hnew, hold⟩
  refine ⟨hs', fun id => ?_⟩
  cases hid : m[id]? with
  | some v => exact hnew (id, v) (ExtTreeMap.mem_toList_iff_getElem?_eq_some.mpr hid)
  | none =>
    refine hold id ?_
    rintro e he rfl
    rw [ExtTreeMap.mem_toList_iff_getElem?_eq_some.mp he] at hid
    cases hid

/-- What a supporter holds for `id`; nothing is as good as epoch 0. -/
def SupporterState.state (s : SupporterState) (id : StoreIdent) : SupportState :=
  s.supportFor[id]?.getD { target := id }

/-- What it will hold once the update is checked in. -/
def SupporterStateForUpdate.state (u : SupporterStateForUpdate) (id : StoreIdent) : SupportState :=
  (u.getSupportFor id).getD { target := id }

def Disk.state (d : Disk) (id : StoreIdent) : SupportState := d.readSupporter.state id

/-- What a requester knows of the support from `id`. -/
def RequesterState.state (s : RequesterState) (id : StoreIdent) : Option SupportState :=
  s.supportFrom[id]?.map (·.state)

/-- Metadata never regress. -/
instance : LE RequesterMeta :=
  ⟨fun a b => a.maxEpoch ≤ b.maxEpoch ∧ a.maxRequested ≤ b.maxRequested⟩

theorem RequesterMeta.le_refl (a : RequesterMeta) : a ≤ a := ⟨le_rfl, le_rfl⟩

theorem RequesterMeta.le_trans {a b c : RequesterMeta} (h : a ≤ b) (h' : b ≤ c) : a ≤ c :=
  ⟨h.1.trans h'.1, h.2.trans h'.2⟩

/-- The metadata that a requester will hold once the update is checked in. -/
def RequesterStateForUpdate.md (u : RequesterStateForUpdate) : RequesterMeta :=
  if u.inProgress.metadata ≠ {} then u.inProgress.metadata else u.checkedIn.metadata

/-- The support from `id` that a response is compared with. -/
def RequesterStateForUpdate.held (u : RequesterStateForUpdate) (id : StoreIdent) : SupportState :=
  (u.getSupportFrom id).getD { target := id }

theorem RequesterStateForUpdate.getSupportFrom_eq (u : RequesterStateForUpdate) (id : StoreIdent) :
    u.getSupportFrom id = (u.inProgress.state id).or (u.checkedIn.state id) := by
  unfold getSupportFrom RequesterState.state
  cases u.inProgress.supportFrom[id]? <;> rfl

theorem SupporterStateForUpdate.state_eq (u : SupporterStateForUpdate) (id : StoreIdent) :
    u.state id = u.inProgress.supportFor[id]?.getD (u.checkedIn.state id) := by
  unfold state getSupportFor SupporterState.state
  cases u.inProgress.supportFor[id]? <;> rfl

theorem RequesterStateForUpdate.getSupportFrom_of_none {u : RequesterStateForUpdate}
    (h : u.inProgress.supportFrom = ∅) (id : StoreIdent) :
    u.getSupportFrom id = u.checkedIn.state id := by
  simp [getSupportFrom_eq, RequesterState.state, h]

section NothingInProgress

variable (rs : RequesterState) (s : SupporterState)

@[simp] theorem RequesterStateForUpdate.md_empty : md ⟨rs, {}⟩ = rs.metadata :=
  if_neg (not_not_intro rfl)

@[simp] theorem RequesterStateForUpdate.getSupportFrom_empty (id : StoreIdent) :
    getSupportFrom ⟨rs, {}⟩ id = rs.state id := getSupportFrom_of_none rfl id

@[simp] theorem SupporterStateForUpdate.state_empty : state ⟨s, {}⟩ = s.state := by
  funext id
  simp [state_eq]

end NothingInProgress

theorem RequesterState.mem_iff {s : RequesterState} {id : StoreIdent} :
    id ∈ s.supportFrom ↔ s.state id ≠ none := by
  unfold state
  rw [← ExtTreeMap.isSome_getElem?_iff_mem]
  cases s.supportFrom[id]? <;> simp

theorem RequesterState.mem_of_state {s : RequesterState} {id : StoreIdent} {ss : SupportState}
    (h : s.state id = some ss) : id ∈ s.supportFrom :=
  mem_iff.mpr (h.trans_ne (Option.some_ne_none _))

/-- The loop of `maybeAddStores`: stores that are known stay as they are. -/
theorem RequesterState.addStores_spec : ∀ (l : List StoreIdent) (rs : RequesterState),
    (l.foldl addStore rs).metadata = rs.metadata ∧ ∀ s,
      (l.foldl addStore rs).state s = rs.state s ∨ s ∉ rs.supportFrom ∧
        (l.foldl addStore rs).state s = some { target := s, epoch := rs.metadata.maxEpoch }
  | [], _ => ⟨rfl, fun _ => .inl rfl⟩
  | a :: l, rs => by
    rw [foldl_cons]
    by_cases hin : a ∈ rs.supportFrom
    · have hadd : rs.addStore a = rs := if_pos hin
      rw [hadd]
      exact addStores_spec l rs
    · obtain ⟨hmeta, hstate⟩ := addStores_spec l (rs.addStore a)
      have hadd : rs.addStore a = ⟨rs.metadata, rs.supportFrom.insert a
          ⟨{ target := a, epoch := rs.metadata.maxEpoch }, true⟩⟩ := if_neg hin
      have hmeta' : (rs.addStore a).metadata = rs.metadata := by rw [hadd]
      have hone : ∀ s, (rs.addStore a).state s =
          if s = a then some { target := a, epoch := rs.metadata.maxEpoch }
          else rs.state s := by
        intro s
        rw [hadd]
        simp only [state, getElem?_insert]
        split_ifs <;> rfl
      rw [hmeta'] at hmeta hstate
      refine ⟨hmeta, fun s => ?_⟩
      rcases hstate s with hold | ⟨hnot, hnew⟩
      · rw [hold, hone]
        by_cases heq : s = a
        · subst heq
          rw [if_pos rfl]
          exact .inr ⟨hin, rfl⟩
        · rw [if_neg heq]
          exact .inl rfl
      · refine .inr ⟨fun hs => hnot ?_, hnew⟩
        rw [hadd]
        exact ExtTreeMap.mem_insert.mpr (.inr hs)

/-! ## Disks -/

namespace Disk

variable {d : Disk}

@[simp] theorem write_supportFor_state (ss : SupportState) (id : StoreIdent) :
    (d.write (.supportFor ss)).state id = if id = ss.target then ss else d.state id := by
  unfold state readSupporter SupporterState.state
  dsimp only [write]
  rw [ExtTreeMap.getElem?_map, ExtTreeMap.getElem?_map, getElem?_insert]
  split_ifs with hid
  · subst hid
    rfl
  · rfl

/-- What is read from disk has its target as its key. -/
theorem target (d : Disk) (id : StoreIdent) : (d.state id).target = id := by
  unfold state readSupporter SupporterState.state
  rw [ExtTreeMap.getElem?_map]
  cases d.supportFor[id]? <;> rfl

end Disk

/-- The states of a map whose keys are their targets. -/
theorem pairwise_states {m : ExtTreeMap StoreIdent SupportState}
    (h : ∀ (id : StoreIdent) (ss : SupportState), m[id]? = some ss → ss.target = id) :
    (m.toList.map (·.2)).Pairwise fun a b => a.target ≠ b.target := by
  rw [pairwise_map]
  refine (m.distinct_keys_toList).imp_of_mem ?_
  intro a b ha hb hne heq
  apply hne
  rw [StoreIdent.compare_eq, ← h _ _ (ExtTreeMap.mem_toList_iff_getElem?_eq_some.mp ha),
    ← h _ _ (ExtTreeMap.mem_toList_iff_getElem?_eq_some.mp hb)]
  exact heq

/-- Writing a whole map of support states. -/
theorem Disk.writeMap {m : ExtTreeMap StoreIdent SupportState}
    (h : ∀ (id : StoreIdent) (ss : SupportState), m[id]? = some ss → ss.target = id) (d : Disk) :
    (((m.toList.map (·.2)).map Write.supportFor).foldl write d).requesterMeta =
        d.requesterMeta ∧
      ∀ id : StoreIdent, (((m.toList.map (·.2)).map Write.supportFor).foldl write d).state id =
        m[id]?.getD (d.state id) := by
  have hfold := sat_entries (ε := Unit) (m := m) (E := fun _ => True) (s := d)
    (f := fun d e => pure (d.write (.supportFor e.2))) (w := Disk.state) (g := fun e _ => e.2)
    (I := fun d' => d'.requesterMeta = d.requesterMeta) (fun d' e he hd' => ⟨hd', fun id => ?_⟩) rfl
  · rw [foldlM_pure] at hfold
    rw [map_map, foldl_map]
    exact ⟨hfold.1, fun id => (hfold.2 id).trans (by cases m[id]? <;> rfl)⟩
  · rw [write_supportFor_state, h _ _ (ExtTreeMap.mem_toList_iff_getElem?_eq_some.mp he)]

/-! ## The core of the two handlers -/

/-- A heartbeat is ignored, or its epoch and expiration are taken over. -/
theorem handleBeat_spec (ss : SupportState) (msg : Message) :
    Sat (handleBeat ss msg)
      (fun _ => ss.epoch < msg.epoch ∧ ¬ ss.expiration < msg.expiration) fun ss' =>
      ss' = ss ∧ (msg.epoch < ss.epoch ∨ msg.epoch = ss.epoch ∧ msg.expiration ≤ ss.expiration) ∨
      ss' = { ss with epoch := msg.epoch, expiration := msg.expiration } ∧
        (ss.epoch < msg.epoch ∨ ss.epoch = msg.epoch ∧ ss.expiration ≤ msg.expiration) := by
  unfold handleBeat
  refine Sat.ite (fun heq => ?_) fun hne => Sat.ite (fun hlt => ?_) fun hge => ?_
  · rw [forward_eq_max, sat_pure]
    rcases le_total ss.expiration msg.expiration with h | h
    · rw [max_eq_right h]
      refine .inr ⟨?_, .inr ⟨heq, h⟩⟩
      rw [heq]
    · rw [max_eq_left h]
      exact .inl ⟨rfl, .inr ⟨heq.symm, h⟩⟩
  · refine Sat.bind (P := fun _ => True) (sat_assert (fun h => ⟨hlt, h⟩) fun _ => trivial) ?_
    intro _ _
    exact .inr ⟨rfl, .inl hlt⟩
  · exact .inl ⟨rfl, .inl (lt_of_le_of_ne (not_lt.mp hge) (Ne.symm hne))⟩

/-- A response is ignored, prolongs the support or ends it. -/
theorem handleResponse_spec (rm : RequesterMeta) (ss : SupportState) (msg : Message) :
    Sat (RequesterStateForUpdate.handleResponse rm ss msg)
      (fun _ => ss.epoch < msg.epoch ∧ (ss.epoch ≠ msg.epoch - 1 ∨ msg.expiration ≠ {})) fun r =>
      r.1 = { rm with maxEpoch := max rm.maxEpoch msg.epoch } ∧ r.2.target = ss.target ∧
      (r.2 = ss ∨
        ss.epoch = msg.epoch ∧ r.2.epoch = msg.epoch ∧ r.2.expiration = msg.expiration ∨
        ss.epoch = msg.epoch - 1 ∧ r.2.epoch = msg.epoch ∧ r.2.expiration = {} ∧
          msg.expiration = {}) := by
  have hrm : (if rm.maxEpoch < msg.epoch then { rm with maxEpoch := msg.epoch } else rm) =
      { rm with maxEpoch := max rm.maxEpoch msg.epoch } := by
    split_ifs with h
    · rw [max_eq_right h.le]
    · rw [max_eq_left (not_lt.mp h)]
  unfold RequesterStateForUpdate.handleResponse
  rw [hrm]
  refine Sat.ite (fun heq => ?_) fun hne => Sat.ite (fun hlt => ?_) fun hge => ?_
  · rw [forward_eq_max, sat_pure]
    refine ⟨rfl, rfl, ?_⟩
    rcases le_total ss.expiration msg.expiration with h | h
    · rw [max_eq_right h]
      exact .inr (.inl ⟨heq, heq, rfl⟩)
    · rw [max_eq_left h]
      exact .inl rfl
  · refine Sat.bind (P := fun _ => ss.epoch = msg.epoch - 1)
      (sat_assert (fun h => ⟨hlt, .inl h⟩) fun h => h) fun _ hep => ?_
    refine Sat.bind (P := fun _ => msg.expiration = {})
      (sat_assert (fun h => ⟨hlt, .inr h⟩) fun h => h) fun _ hexp => ?_
    exact ⟨rfl, rfl, .inr (.inr ⟨hep, rfl, hexp, hexp⟩)⟩
  · exact ⟨rfl, rfl, .inl rfl⟩

/-! ## The requester's updates -/

namespace RequesterStateForUpdate

variable {u : RequesterStateForUpdate}

/-- The assertions on metadata hold. -/
def MetaOk (u : RequesterStateForUpdate) : Prop :=
  u.inProgress.metadata ≠ {} → u.checkedIn.metadata ≤ u.inProgress.metadata

theorem MetaOk.le_md (h : u.MetaOk) : u.checkedIn.metadata ≤ u.md := by
  unfold md
  split_ifs with hne
  · exact h hne
  · exact le_refl _

theorem assertMeta_ok (h : u.checkedIn.metadata ≤ u.inProgress.metadata) :
    u.assertMeta = .ok () := by
  unfold assertMeta assert
  rw [if_pos h.1, if_pos h.2]
  rfl

theorem getMeta_ok (h : u.MetaOk) : u.getMeta = .ok u.md := by
  unfold getMeta md
  split_ifs with hne
  · rw [assertMeta_ok (h hne)]
    rfl
  · rfl

theorem write_ok (h : u.MetaOk) : u.write =
    .ok (if u.inProgress.metadata = {} then none else some u.inProgress.metadata) := by
  unfold write
  split_ifs with hne
  · rfl
  · rw [assertMeta_ok (h hne)]
    rfl

theorem checkInEntry_spec {rs : RequesterState} {id : StoreIdent} {r : RequestedSupport} :
    Sat (checkInEntry rs id r) (fun _ => id ∉ rs.supportFrom) fun rs' =>
      rs'.metadata = rs.metadata ∧
      (∀ id', id' ∈ rs'.supportFrom ↔ id' ∈ rs.supportFrom) ∧
      ∀ id', rs'.state id' = if id' = id then some r.state else rs.state id' := by
  unfold checkInEntry
  cases hid : rs.supportFrom[id]? with
  | none =>
    show id ∉ rs.supportFrom
    rw [← ExtTreeMap.isSome_getElem?_iff_mem, hid]
    exact Bool.false_ne_true
  | some old =>
    have hmem : id ∈ rs.supportFrom := by
      rw [← ExtTreeMap.isSome_getElem?_iff_mem, hid]
      rfl
    refine ⟨rfl, fun id' => ?_, fun id' => ?_⟩
    · rw [ExtTreeMap.mem_insert, StoreIdent.compare_eq]
      constructor
      · rintro (rfl | h)
        · exact hmem
        · exact h
      · exact .inr
    · simp only [RequesterState.state, getElem?_insert]
      split_ifs <;> rfl

/-- Checking in leaves what the update was seen to hold. -/
theorem checkInUpdate_spec (hm : u.MetaOk) : Sat u.checkInUpdate
    (fun _ => ∃ id ∈ u.inProgress.supportFrom, id ∉ u.checkedIn.supportFrom) fun rs =>
      rs.metadata = u.md ∧ (∀ id, id ∈ rs.supportFrom ↔ id ∈ u.checkedIn.supportFrom) ∧
      ∀ id, rs.state id = u.getSupportFrom id := by
  have hloop : ∀ rs : RequesterState, rs.supportFrom = u.checkedIn.supportFrom →
      rs.metadata = u.md →
      Sat (u.inProgress.supportFrom.toList.foldlM (fun rs e => checkInEntry rs e.1 e.2) rs)
        (fun _ => ∃ id ∈ u.inProgress.supportFrom, id ∉ u.checkedIn.supportFrom) fun rs =>
        rs.metadata = u.md ∧ (∀ id, id ∈ rs.supportFrom ↔ id ∈ u.checkedIn.supportFrom) ∧
        ∀ id, rs.state id = u.getSupportFrom id := by
    intro rs hfrom hmeta
    refine (sat_entries (w := RequesterState.state) (g := fun e _ => some e.2.state)
      (I := fun rs => rs.metadata = u.md ∧
        ∀ id, id ∈ rs.supportFrom ↔ id ∈ u.checkedIn.supportFrom) ?_
      ⟨hmeta, fun _ => by rw [hfrom]⟩).imp ?_
    · rintro rs' e he ⟨hmeta', hmem⟩
      refine checkInEntry_spec.mono (fun _ hnot => ⟨e.1, ?_, fun h => hnot ((hmem _).mpr h)⟩) ?_
      · rw [← ExtTreeMap.isSome_getElem?_iff_mem, ExtTreeMap.mem_toList_iff_getElem?_eq_some.mp he]
        rfl
      · exact fun rs'' h => ⟨⟨h.1.trans hmeta', fun id => (h.2.1 id).trans (hmem id)⟩, h.2.2⟩
    · rintro rs' ⟨⟨hmeta', hmem⟩, hstate⟩
      refine ⟨hmeta', hmem, fun id => (hstate id).trans ?_⟩
      unfold getSupportFrom RequesterState.state
      rw [hfrom]
      cases u.inProgress.supportFrom[id]? <;> rfl
  unfold checkInUpdate
  refine Sat.ite (fun hnone => ?_) fun _ => ?_
  · obtain ⟨hmeta, hempty⟩ := hnone
    rw [ExtTreeMap.isEmpty_iff] at hempty
    refine ⟨?_, fun _ => Iff.rfl, fun id => ?_⟩
    · unfold md
      rw [if_neg (not_not_intro hmeta)]
    · unfold getSupportFrom
      rw [hempty, ExtTreeMap.getElem?_empty, Option.none_or]
      rfl
  · by_cases hne : u.inProgress.metadata ≠ {}
    · simp only [if_pos hne, assertMeta_ok (hm hne)]
      refine hloop _ rfl ?_
      unfold md
      rw [if_pos hne]
    · simp only [if_neg hne]
      refine hloop _ rfl ?_
      unfold md
      rw [if_neg hne]

/-- Setting the metadata of an update that is a change. -/
theorem md_set {rm : RequesterMeta} (hrm : rm ≠ {})
    {sf : ExtTreeMap StoreIdent RequestedSupport} :
    (RequesterStateForUpdate.mk u.checkedIn ⟨rm, sf⟩).md = rm := by
  unfold md
  rw [if_pos hrm]

theorem updateMaxRequested_spec (hm : u.MetaOk) (now : Timestamp) (interval : Nat) :
    ∃ u', u.updateMaxRequested now interval = .ok u' ∧ u'.checkedIn = u.checkedIn ∧ u'.MetaOk ∧
      u'.inProgress.supportFrom = u.inProgress.supportFrom ∧
      u'.md = { u.md with maxRequested := max u.md.maxRequested (now.add interval 0) } := by
  unfold updateMaxRequested
  rw [getMeta_ok hm]
  show ∃ u', (if u.md.maxRequested < now.add interval 0 then _ else _) = Except.ok u' ∧ _
  by_cases hlt : u.md.maxRequested < now.add interval 0
  · rw [if_pos hlt]
    have hmax := max_eq_right hlt.le
    have hne : ({ u.md with maxRequested := max u.md.maxRequested (now.add interval 0) } :
        RequesterMeta) ≠ {} := by
      rw [hmax]
      intro h
      have hexp : now.add interval 0 = {} := congrArg maxRequested h
      rw [hexp] at hlt
      exact absurd hlt (not_lt.mpr (empty_le _))
    refine ⟨_, rfl, rfl, fun _ => ?_, rfl, ?_⟩
    · refine le_trans hm.le_md ⟨le_rfl, ?_⟩
      rw [forward_eq_max]
      exact le_max_left _ _
    · rw [forward_eq_max]
      exact md_set hne
  · rw [if_neg hlt]
    refine ⟨_, rfl, rfl, hm, rfl, ?_⟩
    rw [max_eq_left (not_lt.mp hlt)]

theorem generateHeartbeats_spec (hm : u.MetaOk) (hnone : u.inProgress.supportFrom = ∅)
    (src : StoreIdent) : ∃ out, u.generateHeartbeats src = .ok out ∧
      ∀ m ∈ out, ∃ id ss, u.checkedIn.state id = some ss ∧
        m = { type := .heartbeat, src, dst := ss.target, epoch := ss.epoch,
              expiration := u.md.maxRequested } := by
  unfold generateHeartbeats
  rw [getMeta_ok hm]
  have hempty : u.inProgress.supportFrom.isEmpty = true := ExtTreeMap.isEmpty_iff.mpr hnone
  refine ⟨_, by simp only [assert, if_pos hempty]; rfl, ?_⟩
  intro m hmem
  obtain ⟨e, he, rfl⟩ := mem_map.mp hmem
  refine ⟨e.1, e.2.state, ?_, rfl⟩
  unfold RequesterState.state
  rw [ExtTreeMap.mem_toList_iff_getElem?_eq_some.mp he]
  rfl

/-- What a response leaves of an update. -/
theorem handleHeartbeatResponse_spec (hm : u.MetaOk) (hpos : 0 ≤ u.md.maxEpoch) (msg : Message) :
    Sat (u.handleHeartbeatResponse msg)
      (fun _ => (u.held msg.src).epoch < msg.epoch ∧
        ((u.held msg.src).epoch ≠ msg.epoch - 1 ∨
          msg.expiration ≠ {})) fun u' =>
      u'.checkedIn = u.checkedIn ∧ u'.MetaOk ∧
      u'.md = { u.md with maxEpoch := max u.md.maxEpoch msg.epoch } ∧
      (∀ id, u'.getSupportFrom id = u.getSupportFrom id ∧
          (id ∈ u'.inProgress.supportFrom → id ∈ u.inProgress.supportFrom) ∨
        id = msg.src ∧ ∃ ss', u'.getSupportFrom id = some ss' ∧
          ss'.target = (u.held msg.src).target ∧
          ((u.held msg.src).epoch = msg.epoch ∧
              ss'.epoch = msg.epoch ∧ ss'.expiration = msg.expiration ∨
            (u.held msg.src).epoch = msg.epoch - 1 ∧
              ss'.epoch = msg.epoch ∧ ss'.expiration = {} ∧ msg.expiration = {})) := by
  unfold handleHeartbeatResponse
  rw [getMeta_ok hm]
  refine Sat.bind (P := fun md => md = u.md) rfl ?_
  rintro _ rfl
  refine Sat.bind (handleResponse_spec u.md _ msg) ?_
  rintro ⟨rm, ss'⟩ ⟨hrm, htarget, hss⟩
  dsimp only at hrm htarget hss ⊢
  subst hrm
  -- The metadata part: either nothing changes or the epoch goes up.
  generalize hip : (if u.md ≠ { u.md with maxEpoch := max u.md.maxEpoch msg.epoch } then
    { u.inProgress with metadata := { u.md with maxEpoch := max u.md.maxEpoch msg.epoch } }
    else u.inProgress) = ip
  have hmd : ip.supportFrom = u.inProgress.supportFrom ∧
      ∀ sf : ExtTreeMap StoreIdent RequestedSupport,
        (RequesterStateForUpdate.mk u.checkedIn ⟨ip.metadata, sf⟩).md =
          { u.md with maxEpoch := max u.md.maxEpoch msg.epoch } ∧
        (RequesterStateForUpdate.mk u.checkedIn ⟨ip.metadata, sf⟩).MetaOk := by
    rw [← hip]
    by_cases hne : u.md ≠ { u.md with maxEpoch := max u.md.maxEpoch msg.epoch }
    · rw [if_pos hne]
      have hlt : u.md.maxEpoch < msg.epoch := by
        by_contra hle
        rw [max_eq_left (not_lt.mp hle)] at hne
        exact hne rfl
      refine ⟨rfl, fun sf => ⟨md_set fun h => ?_, fun _ => le_trans hm.le_md
        ⟨le_max_left _ _, le_rfl⟩⟩⟩
      have hep := congrArg maxEpoch h
      dsimp only at hep
      rw [max_eq_right hlt.le] at hep
      omega
    · rw [if_neg hne]
      exact ⟨rfl, fun sf => ⟨not_not.mp hne, hm⟩⟩
  obtain ⟨hfrom, hmd⟩ := hmd
  change Sat (pure (RequesterStateForUpdate.mk u.checkedIn
    (if u.held msg.src ≠ ss' then _ else _))) _ _
  by_cases hsame : u.held msg.src ≠ ss'
  · rw [if_pos hsame]
    refine ⟨rfl, (hmd _).2, (hmd _).1, fun id => ?_⟩
    by_cases hid : id = msg.src
    · subst hid
      refine .inr ⟨rfl, ss', ?_, htarget, hss.resolve_left (Ne.symm hsame)⟩
      simp [getSupportFrom]
    · refine .inl ⟨?_, fun hin => ?_⟩
      · simp only [getSupportFrom, getElem?_insert, if_neg hid, hfrom]
      · rw [ExtTreeMap.mem_insert, StoreIdent.compare_eq, hfrom] at hin
        exact hin.resolve_left (Ne.symm hid)
  · rw [if_neg hsame]
    refine ⟨rfl, ?_, ?_, fun id => .inl ⟨?_, fun hin => ?_⟩⟩
    · exact (hmd _).2
    · exact (hmd _).1
    · unfold getSupportFrom
      rw [hfrom]
    · rw [hfrom] at hin
      exact hin

theorem incrementMaxEpoch_spec (hm : u.MetaOk) (hpos : 0 ≤ u.md.maxEpoch) :
    ∃ u', u.incrementMaxEpoch = .ok u' ∧ u'.checkedIn = u.checkedIn ∧ u'.MetaOk ∧
      u'.inProgress.supportFrom = u.inProgress.supportFrom ∧
      u'.inProgress.metadata = { u.md with maxEpoch := u.md.maxEpoch + 1 } ∧
      u'.inProgress.metadata ≠ {} := by
  unfold incrementMaxEpoch
  rw [getMeta_ok hm]
  refine ⟨_, rfl, rfl, fun _ => ?_, rfl, rfl, fun h => ?_⟩
  · exact le_trans hm.le_md ⟨by show u.md.maxEpoch ≤ u.md.maxEpoch + 1; omega, le_rfl⟩
  · have hep : u.md.maxEpoch + 1 = 0 := congrArg maxEpoch h
    omega

end RequesterStateForUpdate

/-! ## The supporter's updates -/

namespace SupporterStateForUpdate

variable {u : SupporterStateForUpdate}

/-- The assertion on metadata holds. -/
def MetaOk (u : SupporterStateForUpdate) : Prop :=
  u.inProgress.metadata ≠ {} →
    u.checkedIn.metadata.maxWithdrawn ≤ u.inProgress.metadata.maxWithdrawn

theorem assertMeta_ok (h : u.checkedIn.metadata.maxWithdrawn ≤ u.inProgress.metadata.maxWithdrawn) :
    u.assertMeta = .ok () := by
  unfold assertMeta assert
  rw [if_pos h]
  rfl

theorem write_ok (h : u.MetaOk) : u.write =
    .ok (if u.inProgress.metadata = {} then none else some u.inProgress.metadata,
      u.inProgress.supportFor.toList.map (·.2)) := by
  unfold write
  by_cases hmeta : u.inProgress.metadata = {}
  · rw [if_pos hmeta, if_neg (not_not_intro hmeta)]
    split_ifs with hempty
    · have hnil : u.inProgress.supportFor.toList = [] := by
        rw [ExtTreeMap.isEmpty_iff.mp hempty.2]
        rfl
      rw [hnil]
      rfl
    · rfl
  · rw [if_neg fun hc => hmeta hc.1, if_neg hmeta, if_pos hmeta, assertMeta_ok (h hmeta)]
    rfl

/-- Checking in leaves what the update was seen to hold. -/
theorem checkInUpdate_ok (h : u.MetaOk) : ∃ s', u.checkInUpdate = .ok s' ∧
    ∀ id, s'.supportFor[id]? = u.getSupportFor id := by
  have hunion : ∀ id, (u.checkedIn.supportFor ∪ u.inProgress.supportFor)[id]? =
      u.getSupportFor id := fun _ => ExtTreeMap.getElem?_union
  unfold checkInUpdate
  by_cases hmeta : u.inProgress.metadata = {}
  · rw [if_neg (not_not_intro hmeta)]
    split_ifs with hempty
    · refine ⟨_, rfl, fun id => ?_⟩
      unfold getSupportFor
      rw [ExtTreeMap.isEmpty_iff.mp hempty.2, ExtTreeMap.getElem?_empty, Option.none_or]
    · exact ⟨_, rfl, hunion⟩
  · rw [if_neg fun hc => hmeta hc.1, if_pos hmeta, assertMeta_ok (h hmeta)]
    exact ⟨_, rfl, hunion⟩

/-- What a heartbeat leaves of an update, and what is answered. -/
theorem handleHeartbeat_spec (u : SupporterStateForUpdate) (msg : Message) :
    Sat (u.handleHeartbeat msg)
      (fun _ => (u.state msg.src).epoch < msg.epoch ∧
        ¬ (u.state msg.src).expiration < msg.expiration) fun r =>
      r.1.checkedIn = u.checkedIn ∧ r.1.inProgress.metadata = u.inProgress.metadata ∧
      (∀ id, id ≠ msg.src → r.1.getSupportFor id = u.getSupportFor id) ∧
      (r.1.state msg.src = u.state msg.src ∧ (msg.epoch < (u.state msg.src).epoch ∨
          msg.epoch = (u.state msg.src).epoch ∧
            msg.expiration ≤ (u.state msg.src).expiration) ∨
        r.1.state msg.src =
            { u.state msg.src with epoch := msg.epoch, expiration := msg.expiration } ∧
          ((u.state msg.src).epoch < msg.epoch ∨ (u.state msg.src).epoch = msg.epoch ∧
            (u.state msg.src).expiration ≤ msg.expiration)) ∧
      r.2 = { type := .heartbeatResp, src := msg.dst, dst := msg.src,
              epoch := (r.1.state msg.src).epoch,
              expiration := (r.1.state msg.src).expiration } := by
  unfold handleHeartbeat
  refine Sat.bind (handleBeat_spec (u.state msg.src) msg) ?_
  intro ss' hss
  dsimp only
  change Sat (pure (mk u.checkedIn (if u.state msg.src ≠ ss' then _ else _), _)) _ _
  by_cases hsame : u.state msg.src ≠ ss'
  · rw [if_pos hsame]
    have hstate : (mk u.checkedIn ⟨u.inProgress.metadata,
        u.inProgress.supportFor.insert msg.src ss'⟩).state msg.src = ss' := by
      simp [state, getSupportFor]
    refine ⟨rfl, rfl, fun id hid => ?_, ?_, ?_⟩
    · simp only [getSupportFor, getElem?_insert, if_neg hid]
    · rw [hstate]
      exact hss
    · rw [hstate]
  · have heq := not_not.mp hsame
    rw [if_neg hsame]
    refine ⟨rfl, rfl, fun _ _ => rfl, ?_, ?_⟩
    · rw [← heq] at hss
      exact hss
    · rw [← heq]

theorem maybeWithdrawSupport_spec {ss : SupportState} {now : Timestamp}
    (h : ss ≠ maybeWithdrawSupport ss now) : ss.expiration ≠ {} ∧ ss.expiration ≤ now ∧
      maybeWithdrawSupport ss now = { ss with epoch := ss.epoch + 1, expiration := {} } := by
  unfold maybeWithdrawSupport at h ⊢
  split_ifs at h ⊢ with hc
  · refine ⟨fun he => ?_, hc.2, rfl⟩
    have hempty := isEmpty_iff.mpr he
    rw [hc.1] at hempty
    cases hempty
  · exact absurd rfl h

/-- What the loop of `withdrawSupport` leaves for each store. -/
def withdrawn (now : Timestamp) (ss : Option SupportState) : Option SupportState :=
  ss.bind fun ss => if ss ≠ maybeWithdrawSupport ss now then some (maybeWithdrawSupport ss now)
    else none

theorem withdrawEntry_ok (h : u.MetaOk) (now : Timestamp) (id : StoreIdent) (ss : SupportState) :
    ∃ u', withdrawEntry now u id ss = .ok u' ∧ u'.checkedIn = u.checkedIn ∧ u'.MetaOk ∧
      ∀ id', u'.inProgress.supportFor[id']? =
        if id' = id then (withdrawn now (some ss)).or u.inProgress.supportFor[id']?
        else u.inProgress.supportFor[id']? := by
  unfold withdrawEntry withdrawn
  dsimp only [Option.bind_some]
  by_cases hne : ss ≠ maybeWithdrawSupport ss now
  · rw [if_pos hne, if_pos hne]
    have hmeta : ∀ sf : ExtTreeMap StoreIdent SupportState, ∃ md,
        (mk u.checkedIn ⟨u.inProgress.metadata, sf⟩).getMeta = .ok md ∧
        u.checkedIn.metadata.maxWithdrawn ≤ md.maxWithdrawn := by
      intro sf
      unfold getMeta
      by_cases hm : u.inProgress.metadata ≠ {}
      · refine ⟨u.inProgress.metadata, ?_, h hm⟩
        rw [if_pos hm, assertMeta_ok (u := ⟨u.checkedIn, ⟨u.inProgress.metadata, sf⟩⟩) (h hm)]
        rfl
      · refine ⟨u.checkedIn.metadata, ?_, le_rfl⟩
        rw [if_neg hm]
        rfl
    obtain ⟨md, hmd, hle⟩ := hmeta (u.inProgress.supportFor.insert id (maybeWithdrawSupport ss now))
    rw [hmd]
    show ∃ u', (if md.maxWithdrawn < now then _ else _) = Except.ok u' ∧ _
    by_cases hlt : md.maxWithdrawn < now
    · rw [if_pos hlt]
      refine ⟨_, rfl, rfl, fun _ => ?_, fun id' => getElem?_insert _ _ id' _⟩
      show _ ≤ md.maxWithdrawn.forward now
      rw [forward_eq_max]
      exact hle.trans (le_max_left _ _)
    · rw [if_neg hlt]
      exact ⟨_, rfl, rfl, h, fun id' => getElem?_insert _ _ id' _⟩
  · rw [if_neg hne, if_neg hne]
    refine ⟨_, rfl, rfl, h, fun id' => ?_⟩
    rw [Option.none_or, ite_self]

/-- Support is withdrawn wherever it has expired, and nothing else changes. -/
theorem withdrawSupport_ok (h : u.MetaOk) (hnone : u.inProgress.supportFor = ∅)
    (now : Timestamp) : ∃ u', u.withdrawSupport now = .ok u' ∧ u'.checkedIn = u.checkedIn ∧
      u'.MetaOk ∧ ∀ id : StoreIdent,
        u'.inProgress.supportFor[id]? = withdrawn now u.checkedIn.supportFor[id]? := by
  have hloop := sat_entries (m := u.checkedIn.supportFor) (E := fun _ : Panic => False) (s := u)
    (f := fun u e => withdrawEntry now u e.1 e.2)
    (w := fun u id => u.inProgress.supportFor[id]?) (g := fun e => (withdrawn now (some e.2)).or)
    (I := fun u' => u'.checkedIn = u.checkedIn ∧ u'.MetaOk) ?_ ⟨rfl, h⟩
  · unfold withdrawSupport assert
    rw [if_pos (ExtTreeMap.isEmpty_iff.mpr hnone)]
    cases hu' : u.checkedIn.supportFor.toList.foldlM (fun u e => withdrawEntry now u e.1 e.2) u with
    | error p => exact (hloop.stop hu').elim
    | ok u' =>
      obtain ⟨⟨hc, hm⟩, hview⟩ := hloop.elim hu'
      refine ⟨u', rfl, hc, hm, fun id => (hview id).trans ?_⟩
      rw [hnone, ExtTreeMap.getElem?_empty]
      cases u.checkedIn.supportFor[id]? with
      | some ss => exact Option.or_none
      | none => rfl
  · rintro u₁ e - ⟨hc, hm⟩
    obtain ⟨u₂, hu₂, hc₂, hm₂, hview⟩ := withdrawEntry_ok hm now e.1 e.2
    rw [hu₂]
    exact ⟨⟨hc₂.trans hc, hm₂⟩, hview⟩

end SupporterStateForUpdate

end Cockroach.StoreLiveness
