import Cockroach.StoreLiveness.Runs

/-!
# Support is durable

What a requester has been told holds (`Held`) until the supporter withdraws it, at
or after its expiration, or the requester itself asks for a later epoch. It does the
latter only when it has lost its record of the supporter meanwhile, by a restart or
because the supporter was idle, or when the support was withdrawn (`Asking`). Epochs
on disk and in memory never go down.

No legal action panics but one over a response from a store that was dropped.
-/

namespace Cockroach.StoreLiveness

open Lib Hlc

namespace Cluster

variable {C : Cluster → StoreIdent → Store.Act → Prop} {c c' : Cluster} {s r : StoreIdent}
  {e : Int} {exp : Timestamp} {a : SupportState}

/-- The supporter `s` has withdrawn its support of `r` in epoch `e`, at `exp` or later
by its own clock. -/
def Withdrew (c : Cluster) (s r : StoreIdent) (e : Int) (exp : Timestamp) : Prop :=
  ∃ now, exp ≤ now ∧ ⟨r, e, now⟩ ∈ (c.store s).disk.withdrawn

/-- The requester `r` has no record of `s`. -/
def Forgot (c : Cluster) (r s : StoreIdent) : Prop :=
  ∀ sm, (c.store r).manager = some sm → s ∉ sm.requester.supportFrom

/-- A run from `c` to `c'`, which goes through the states `cs`. -/
def Through (C : Cluster → StoreIdent → Store.Act → Prop) (c : Cluster) (cs : List Cluster)
    (c' : Cluster) : Prop :=
  (c :: cs).IsChain (Step C) ∧ (c :: cs).getLast (List.cons_ne_nil c cs) = c'

/-- In one of the states `cs` the requester `r` has no record of `s`, and after it `r` has
asked for an epoch after `e`. -/
def Reasked (cs : List Cluster) (c' : Cluster) (r s : StoreIdent) (e : Int) : Prop :=
  ∃ c₁ ∈ cs, c₁.Forgot r s ∧ ∃ m ∈ c'.sent, m ∉ c₁.sent ∧ m.IsBeat r s ∧ e < m.epoch

/-- The supporter `s` keeps `a` for `r`, in memory and on disk. -/
structure Held (c : Cluster) (s r : StoreIdent) (a : SupportState) : Prop where
  disk : Kept c.sent (c.store s).disk.withdrawn s r a ((c.store s).disk.state r)
  memory : ∀ sm, (c.store s).manager = some sm →
    Kept c.sent (c.store s).disk.withdrawn s r a (sm.supporter.state r)

/-- The requester `r` has asked and will ask `s` for no epoch after `e` unless the
support for `e` was withdrawn. -/
structure Asking (c : Cluster) (r s : StoreIdent) (e : Int) (exp : Timestamp) : Prop where
  beats : ∀ m ∈ c.sent, m.IsBeat r s → e < m.epoch → c.Withdrew s r e exp
  sees : ∃ sm, (c.store r).manager = some sm ∧ s ∈ sm.requester.supportFrom ∧
    ∀ ss, sm.Sees s ss → e < ss.epoch → c.Withdrew s r e exp

/-- What a step does to a store: nothing, or what an action of it does. -/
theorem Step.moves (h : Step C c c') (hc : c.Inv) : ∃ id out, c'.sent = out ++ c.sent ∧
    (∀ m ∈ out, m.src = id) ∧ Moves c.sent id (c.store id) (c'.store id) out ∧
    ∀ id', id' ≠ id → c'.store id' = c.store id' := by
  cases h with
  | @act id _ st out hl _ ha =>
    obtain ⟨-, hsrc, hmoves⟩ := (hc.act hl).elim ha
    refine ⟨id, out, rfl, hsrc, ?_, fun id' hid => Function.update_of_ne hid _ _⟩
    show Moves c.sent id (c.store id) (Function.update c.store id st id) out
    rw [Function.update_self]
    exact hmoves

/-- Disks get no worse. -/
theorem Step.disk (h : Step C c c') (hc : c.Inv) (s r : StoreIdent) :
    c.sent ⊆ c'.sent ∧ (c.store s).disk.withdrawn ⊆ (c'.store s).disk.withdrawn ∧
      Kept c'.sent (c'.store s).disk.withdrawn s r ((c.store s).disk.state r)
        ((c'.store s).disk.state r) := by
  obtain ⟨id, out, hsent, -, hmoves, hother⟩ := h.moves hc
  have hsub : c.sent ⊆ c'.sent := by
    rw [hsent]
    exact List.subset_append_right _ _
  by_cases hid : s = id
  · subst hid
    exact ⟨hsub, hmoves.disk.log, (hmoves.disk.kept r).mono hsub (List.Subset.refl _)⟩
  · rw [hother s hid]
    exact ⟨hsub, List.Subset.refl _, .refl _⟩

theorem Withdrew.step (hw : c.Withdrew s r e exp) (h : Step C c c') (hc : c.Inv) :
    c'.Withdrew s r e exp := by
  obtain ⟨now, hle, hin⟩ := hw
  exact ⟨now, hle, (h.disk hc s r).2.1 hin⟩

theorem Held.step (hh : c.Held s r a) (h : Step C c c') (hc : c.Inv) : c'.Held s r a := by
  obtain ⟨hsent, hlog, hkept⟩ := h.disk hc s r
  have hdisk := (hh.disk.mono hsent hlog).trans hkept
  obtain ⟨id, out, -, -, hmoves, hother⟩ := h.moves hc
  refine ⟨hdisk, fun sm' hsm' => ?_⟩
  by_cases hid : s = id
  · subst hid
    rcases hmoves.supporter sm' hsm' with ⟨sm, hsm, heq⟩ | heq
    · rw [heq]
      exact (hh.memory sm hsm).mono hsent hlog
    · rw [heq]
      exact hdisk
  · rw [hother s hid] at hsm'
    exact (hh.memory sm' hsm').mono hsent hlog

/-- A requester learns of a later epoch only from the supporter, and the supporter
comes to one only by a withdrawal. -/
theorem Held.answer (hh : c.Held s r a) (hc : c.Inv)
    (hbeats : ∀ m ∈ c.sent, m.IsBeat r s → a.epoch < m.epoch →
      c.Withdrew s r a.epoch a.expiration)
    {m : Message} (hm : m ∈ c.sent) (ha : m.IsAnswer s r) (hlt : a.epoch < m.epoch) :
    c.Withdrew s r a.epoch a.expiration := by
  have hkept := ((hc s).answers m hm ⟨ha.1, ha.2.1, rfl⟩).2
  rw [ha.2.2] at hkept
  have hle : m.epoch ≤ ((c.store s).disk.state r).epoch := hkept.epoch
  rcases hh.disk.promise with ⟨heq, -⟩ | ⟨m', hm', hb, hlt'⟩ | hlog
  · omega
  · exact hbeats m' hm' hb hlt'
  · exact hlog

theorem Asking.step (h : c.Asking r s a.epoch a.expiration) (hh : c.Held s r a) (hc : c.Inv)
    (hstep : Step C c c') :
    (∀ m ∈ c'.sent, m.IsBeat r s → a.epoch < m.epoch → c'.Withdrew s r a.epoch a.expiration) ∧
      (c'.Forgot r s ∨ c'.Asking r s a.epoch a.expiration) := by
  obtain ⟨id, out, hsent, hsrc, hmoves, hother⟩ := hstep.moves hc
  obtain ⟨sm, hsm, hin, hsees⟩ := h.sees
  have hbeats : ∀ m ∈ c'.sent, m.IsBeat r s → a.epoch < m.epoch →
      c'.Withdrew s r a.epoch a.expiration := by
    intro m hm hb hlt
    rw [hsent] at hm
    refine Withdrew.step ?_ hstep hc
    rcases List.mem_append.mp hm with hm | hm
    · have hid : r = id := hb.2.1.symm.trans (hsrc m hm)
      subst hid
      obtain ⟨sm₁, ss, hsm₁, hss, hep⟩ := hmoves.out m hm hb.1
      rw [hsm] at hsm₁
      cases hsm₁
      rw [hb.2.2] at hss
      exact hsees ss hss (by omega)
    · exact h.beats m hm hb hlt
  refine ⟨hbeats, ?_⟩
  by_cases hid : r = id
  · subst hid
    by_cases hforgot : c'.Forgot r s
    · exact .inl hforgot
    · unfold Forgot at hforgot
      push Not at hforgot
      obtain ⟨sm', hsm', hin'⟩ := hforgot
      refine .inr ⟨hbeats, sm', hsm', hin', fun ss hss hlt => Withdrew.step ?_ hstep hc⟩
      rcases hmoves.requester sm sm' hsm hsm' s hin ss hss with hold | ⟨m, hm, ha, hep⟩
      · exact hsees ss hold hlt
      · exact hh.answer hc h.beats hm ha (by omega)
  · refine .inr ⟨hbeats, sm, ?_, hin, fun ss hss hlt => (hsees ss hss hlt).step hstep hc⟩
    rw [hother r hid]
    exact hsm

/-! ## Runs -/

theorem Run.held (h : Run C c c') (hc : c.Inv) (hh : c.Held s r a) : c'.Held s r a := by
  induction h with
  | refl => exact hh
  | tail hrun hstep ih => exact ih.step hstep (Run.inv hrun hc)

theorem Withdrew.run (hw : c.Withdrew s r e exp) (h : Run C c c') (hc : c.Inv) :
    c'.Withdrew s r e exp := by
  induction h with
  | refl => exact hw
  | tail hrun hstep ih => exact ih.step hstep (Run.inv hrun hc)

theorem Through.run {cs : List Cluster} (h : Through C c cs c') : Run C c c' :=
  List.relationReflTransGen_of_exists_isChain_cons cs h.1 h.2

/-- A later epoch was asked for after a withdrawal, or after the requester had lost its
record. -/
theorem Through.asked {cs : List Cluster} (h : Through C c cs c') (hc : c.Inv)
    (hh : c.Held s r a) (ha : c.Asking r s a.epoch a.expiration) {m : Message} (hm : m ∈ c'.sent)
    (hb : m.IsBeat r s) (hlt : a.epoch < m.epoch) :
    c'.Withdrew s r a.epoch a.expiration ∨ Reasked cs c' r s a.epoch := by
  induction cs generalizing c with
  | nil =>
    obtain ⟨-, rfl⟩ := h
    exact .inl (ha.beats m hm hb hlt)
  | cons c₁ cs ih =>
    have hstep : Step C c c₁ := (List.isChain_cons_cons.mp h.1).1
    have hrest : Through C c₁ cs c' := ⟨(List.isChain_cons_cons.mp h.1).2, h.2⟩
    have hc₁ : c₁.Inv := Run.inv (.single hstep) hc
    obtain ⟨hbeats, hforgot | ha₁⟩ := ha.step hh hc hstep
    · by_cases hold : m ∈ c₁.sent
      · exact .inl ((hbeats m hold hb hlt).run hrest.run hc₁)
      · exact .inr ⟨c₁, List.mem_cons_self, hforgot, m, hm, hold, hb, hlt⟩
    · refine (ih hrest hc₁ (hh.step hstep hc) ha₁).imp_right ?_
      rintro ⟨c₂, hc₂, hre⟩
      exact ⟨c₂, List.mem_cons_of_mem _ hc₂, hre⟩

/-- What a requester that reports support was told. -/
theorem Inv.told (hc : c.Inv) {sm : SupportManager} (hsm : (c.store r).manager = some sm)
    (hs : sm.supportFrom s = (e, exp, true)) :
    1 ≤ e ∧ {} < exp ∧ c.Held s r ⟨r, e, exp⟩ ∧ c.Asking r s e exp := by
  have hr := (hc r).running sm hsm
  unfold SupportManager.supportFrom at hs
  cases hrs : sm.requester.supportFrom[s]? with
  | none =>
    rw [hrs] at hs
    cases hs
  | some rs =>
    rw [hrs] at hs
    dsimp only at hs
    split_ifs at hs with hempty
    · cases hs
    cases hs
    have hstate : sm.requester.state s = some rs.state := by
      unfold RequesterState.state
      rw [hrs]
      rfl
    have hne : rs.state.expiration ≠ {} := fun h => hempty (Timestamp.isEmpty_iff.mpr h)
    obtain ⟨-, hpos, -, hheard, hasked⟩ := hr.requested s rs.state (.inl hstate)
    obtain ⟨m, hm, ⟨htype, hsrc, rfl⟩, hep, hx⟩ := hheard.resolve_left hne
    have hmem : s ∈ sm.requester.supportFrom := RequesterState.mem_of_state hstate
    have hm' : m.state = ⟨m.dst, rs.state.epoch, rs.state.expiration⟩ := by
      unfold Message.state
      rw [hep, hx]
    have hheld : c.Held s m.dst ⟨m.dst, rs.state.epoch, rs.state.expiration⟩ := by
      rw [← hm']
      exact ⟨((hc s).answers m hm ⟨htype, hsrc, rfl⟩).2,
        fun sm hsm => ((hc s).running sm hsm).answered m hm ⟨htype, hsrc, rfl⟩⟩
    have hbeats : ∀ m' ∈ c.sent, m'.IsBeat m.dst s → rs.state.epoch < m'.epoch →
        c.Withdrew s m.dst rs.state.epoch rs.state.expiration :=
      fun m hm hb hlt => absurd (hasked m hm hb) (not_le.mpr hlt)
    refine ⟨hpos, ?_, hheld, hbeats, sm, hsm, hmem, fun ss hss hlt => ?_⟩
    · exact lt_of_le_of_ne (Timestamp.empty_le _) (Ne.symm hne)
    · -- An update in progress may have gone on to the epoch after a withdrawal.
      have hold : sm.requester.state s = some ss ∨
          ∃ m' ∈ c.sent, m'.IsAnswer s m.dst ∧ m'.epoch = ss.epoch := by
        rcases hss with hss | hss
        · exact .inl hss
        · exact hr.progress s ss hss
      rcases hold with hold | ⟨m, hm, ha, hep⟩
      · rw [hstate] at hold
        cases hold
        exact absurd hlt (lt_irrefl _)
      · exact hheld.answer hc hbeats hm ha (by show rs.state.epoch < m.epoch; omega)

/-- No legal action panics but the handling of a response from a store that its
receiver does not know. -/
theorem act_no_panic (h : Run Any {} c) {id : StoreIdent} {a : Store.Act} (hl : c.Legal id a)
    (hk : (c.store id).Knows a) : ∃ st out, (c.store id).act id a = .ok (st, out) := by
  have hact := (Run.inv h inv_init).act hl
  cases hres : (c.store id).act id a with
  | ok res => exact ⟨res.1, res.2, rfl⟩
  | error p =>
    rw [hres] at hact
    exact absurd hk hact

/-- Nothing is sent before what it rests on is durable. A heartbeat is within the epochs and
expirations on the disk of its sender, and one of a later epoch asks for more time. A response
is owed to a heartbeat, and the disk of its sender has kept what it says since. -/
theorem sent_is_durable (h : Run Any {} c) (id : StoreIdent) :
    (∀ m ∈ c.sent, m.type = .heartbeat → m.src = id →
      m.epoch ≤ (c.store id).disk.requesterMeta.maxEpoch ∧
        m.expiration ≤ (c.store id).disk.requesterMeta.maxRequested) ∧
    (∀ m ∈ c.sent, ∀ m' ∈ c.sent, m.IsBeat id m.dst → m'.IsBeat id m.dst → m.epoch < m'.epoch →
      m.expiration < m'.expiration) ∧
    ∀ m ∈ c.sent, m.IsAnswer id m.dst → Told c.sent id m.dst m.state ∧
      Kept c.sent (c.store id).disk.withdrawn id m.dst m.state ((c.store id).disk.state m.dst) := by
  have hinv := Run.inv h inv_init id
  exact ⟨fun m hm ht hs => (hinv.asks.bounds m hm ht hs).2.2, hinv.asks.ordered, hinv.answers⟩

/-! ## Two stores -/

/-- The cluster after the given actions, if they are all legal and none panics. -/
def perform (c : Cluster) : List (StoreIdent × Store.Act) → Option Cluster
  | [] => some c
  | (id, a) :: as =>
    if c.Legal id a then
      match (c.store id).act id a with
      | .ok (st, out) => perform (c.after id st out) as
      | .error _ => none
    else none

theorem run_of_perform : ∀ {as : List (StoreIdent × Store.Act)} {c c' : Cluster},
    perform c as = some c' → Run Any c c'
  | [], c, c', h => by
    cases h
    exact .refl
  | (id, a) :: as, c, c', h => by
    unfold perform at h
    split_ifs at h with hl
    cases ha : (c.store id).act id a with
    | error p =>
      rw [ha] at h
      cases h
    | ok res =>
      rw [ha] at h
      exact .head (.act hl trivial ha) (run_of_perform h)

/-- Two stores, each on a node of its own. -/
def storeOne : StoreIdent := ⟨1, 1⟩

def storeTwo : StoreIdent := ⟨2, 2⟩

/-- A store starts with its physical clock at `p`. -/
def boot (id : StoreIdent) (p : Nat) : List (StoreIdent × Store.Act) :=
  [(id, .start ⟨10, 0⟩ 0 p [p] p), (id, .advance), (id, .advance), (id, .advance)]

/-- Store 1 asks store 2 for support. -/
def ask (p : Nat) : List (StoreIdent × Store.Act) :=
  [(storeOne, .querySupportFrom storeTwo), (storeOne, .heartbeat true p), (storeOne, .advance),
    (storeOne, .advance), (storeOne, .advance)]

/-- A store handles a message. -/
def handle (m : Message) : List (StoreIdent × Store.Act) :=
  [(m.dst, .receive [m]), (m.dst, .advance), (m.dst, .advance), (m.dst, .advance)]

def beat (epoch : Int) (expiration : Timestamp) : Message :=
  { type := .heartbeat, src := storeOne, dst := storeTwo, epoch, expiration }

def answer (epoch : Int) (expiration : Timestamp) : Message :=
  { type := .heartbeatResp, src := storeTwo, dst := storeOne, epoch, expiration }

/-- Store 2 has answered the first heartbeat of store 1. -/
def answered : List (StoreIdent × Store.Act) :=
  boot storeOne 100 ++ boot storeTwo 100 ++ ask 101 ++ handle (beat 1 ⟨111, 0⟩)

/-- Store 1 restarts and asks again. -/
def reask : List (StoreIdent × Store.Act) :=
  [(storeOne, .crash)] ++ boot storeOne 120 ++ ask 121 ++ handle (beat 2 ⟨131, 0⟩)

/-- The answer of a store that was dropped as idle meanwhile. -/
theorem act_panics_dropped : ∃ c, Run Any {} c ∧ c.Legal storeOne (.receive [answer 1 ⟨111, 0⟩]) ∧
    (c.store storeOne).act storeOne (.receive [answer 1 ⟨111, 0⟩]) = .error .nonZeroTimestamp := by
  have hrun : ((perform {} (answered ++
      [(storeOne, .removeIdle), (storeOne, .removeIdle)])).map fun c =>
        (decide (c.Legal storeOne (.receive [answer 1 ⟨111, 0⟩])),
          ((c.store storeOne).act storeOne (.receive [answer 1 ⟨111, 0⟩])).map fun _ => ())) =
      some (true, .error .nonZeroTimestamp) := by decide +kernel
  obtain ⟨c, hc, hobs⟩ := Option.map_eq_some_iff.mp hrun
  obtain ⟨hl, hact⟩ := Prod.mk.inj hobs
  exact ⟨c, run_of_perform hc, of_decide_eq_true hl, Lib.map_eq_error.mp hact⟩

/-- The same answer, from a store that is still known. -/
theorem act_no_panic_known : ∃ c, Run Any {} c ∧ c.Legal storeOne (.receive [answer 1 ⟨111, 0⟩]) ∧
    (c.store storeOne).Knows (.receive [answer 1 ⟨111, 0⟩]) ∧
    ∃ st out, (c.store storeOne).act storeOne (.receive [answer 1 ⟨111, 0⟩]) = .ok (st, out) := by
  have hrun : ((perform {} answered).map fun c =>
      (decide (c.Legal storeOne (.receive [answer 1 ⟨111, 0⟩])),
        decide ((c.store storeOne).Knows (.receive [answer 1 ⟨111, 0⟩])))) =
      some (true, true) := by decide +kernel
  obtain ⟨c, hc, hobs⟩ := Option.map_eq_some_iff.mp hrun
  obtain ⟨hl, hk⟩ := Prod.mk.inj hobs
  exact ⟨c, run_of_perform hc, of_decide_eq_true hl, of_decide_eq_true hk,
    act_no_panic (run_of_perform hc) (of_decide_eq_true hl) (of_decide_eq_true hk)⟩

/-- Store 2 has answered twice and its disk is at the second epoch. -/
theorem sent_is_durable_twice : ∃ c, Run Any {} c ∧ answer 1 ⟨111, 0⟩ ∈ c.sent ∧
    (c.store storeTwo).disk.state storeOne = ⟨storeOne, 2, ⟨131, 0⟩⟩ ∧
    Kept c.sent (c.store storeTwo).disk.withdrawn storeTwo storeOne ⟨storeOne, 1, ⟨111, 0⟩⟩
      ((c.store storeTwo).disk.state storeOne) := by
  have hrun : ((perform {} (answered ++ reask)).map fun c =>
      (decide (answer 1 ⟨111, 0⟩ ∈ c.sent), (c.store storeTwo).disk.state storeOne)) =
      some (true, ⟨storeOne, 2, ⟨131, 0⟩⟩) := by decide +kernel
  obtain ⟨c, hc, hobs⟩ := Option.map_eq_some_iff.mp hrun
  obtain ⟨hm, hstate⟩ := Prod.mk.inj hobs
  have hm := of_decide_eq_true hm
  exact ⟨c, run_of_perform hc, hm, hstate,
    ((sent_is_durable (run_of_perform hc) storeTwo).2.2 _ hm ⟨rfl, rfl, rfl⟩).2⟩

end Cluster

end Cockroach.StoreLiveness
