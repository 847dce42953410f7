import Cockroach.Raft.Tracker

/-!
# Configuration changes (`pkg/raft/confchange`)

The `Changer` and `Restore`, translated statement by statement. Go ranges over
maps in no fixed order; where the order shows (which violation `checkInvariants`
reports first) the model takes the increasing one.
-/

namespace Cockroach.Raft.Confchange

open Lib

/-- The errors a change can return. -/
inductive ConfErr
  | noProgress (id : PeerID)
  | learnersNextNotOutgoing (id : PeerID)
  | learnersNextIsLearner (id : PeerID)
  | learnerInOutgoing (id : PeerID)
  | learnerInIncoming (id : PeerID)
  | learnerNotMarked (id : PeerID)
  | outgoingNotNil
  | learnersNextNotNil
  | autoLeaveNotJoint
  | alreadyJoint
  | zeroVoterJoint
  | notJoint
  | simpleInJoint
  | unexpectedConfType (n : Nat)
  | removedAllVoters
  | moreThanOneVoter
  deriving DecidableEq, Repr

/-- A configuration with its progress map, as every change returns them. -/
abbrev ConfResult := Except ConfErr (Config × ProgressMap)

/-- `confchange.Changer`. -/
structure Changer where
  config : Config := .makeEmpty
  progressMap : ProgressMap := ∅
  maxInflight : Nat := 0
  maxInflightBytes : Nat := 0
  lastIndex : Nat := 0

/-- `nilAwareAdd`. -/
def nilAwareAdd (m : Option (Finset PeerID)) (id : PeerID) : Option (Finset PeerID) :=
  some (insert id (m.getD ∅))

/-- `nilAwareDelete`. -/
def nilAwareDelete (m : Option (Finset PeerID)) (id : PeerID) : Option (Finset PeerID) :=
  match m with
  | none => none
  | some s => if (s.erase id).card = 0 then none else some (s.erase id)

/-- `symdiff`. -/
def symdiff (l r : Finset PeerID) : Nat := (l \ r).card + (r \ l).card

/-- `joint`. -/
def joint (cfg : Config) : Bool := cfg.voters.outgoingIDs.card > 0

/-- A check of `checkInvariants` over the ids of a map: the first id for which
it fails is reported. -/
def forEach (ids : Finset PeerID) (check : PeerID → Option ConfErr) : Except ConfErr Unit :=
  match (ascending ids).findSome? check with
  | some e => throw e
  | none => pure ()

/-- `checkInvariants`. -/
def checkInvariants (cfg : Config) (trk : ProgressMap) : Except ConfErr Unit := do
  let hasProgress (id : PeerID) : Option ConfErr :=
    if trk.contains id then none else some (.noProgress id)
  forEach cfg.voters.ids hasProgress
  forEach cfg.learnerIDs hasProgress
  forEach cfg.learnersNextIDs hasProgress
  -- Staged learners are held back by a voter of the outgoing config.
  forEach cfg.learnersNextIDs fun id =>
    if id ∉ cfg.voters.outgoingIDs then some (.learnersNextNotOutgoing id)
    else if (trk[id]?.getD {}).isLearner then some (.learnersNextIsLearner id)
    else none
  -- Conversely learners and voters do not intersect at all.
  forEach cfg.learnerIDs fun id =>
    if id ∈ cfg.voters.outgoingIDs then some (.learnerInOutgoing id)
    else if id ∈ cfg.voters.incoming then some (.learnerInIncoming id)
    else if !(trk[id]?.getD {}).isLearner then some (.learnerNotMarked id)
    else none
  if !joint cfg then
    -- Empty maps must be nil.
    if cfg.voters.outgoing.isSome then throw .outgoingNotNil
    if cfg.learnersNext.isSome then throw .learnersNextNotNil
    if cfg.autoLeave then throw .autoLeaveNotJoint

/-- `checkAndReturn`. -/
def checkAndReturn (cfg : Config) (trk : ProgressMap) : ConfResult := do
  checkInvariants cfg trk
  return (cfg, trk)

namespace Changer

/-- `Changer.checkAndCopy`. -/
def checkAndCopy (c : Changer) : ConfResult :=
  checkAndReturn c.config.clone c.progressMap

/-- `Changer.initProgress`. -/
def initProgress (c : Changer) (cfg : Config) (trk : ProgressMap) (id : PeerID)
    (isLearner : Bool) : Config × ProgressMap :=
  let cfg :=
    if !isLearner then
      { cfg with voters := { cfg.voters with incoming := insert id cfg.voters.incoming } }
    else { cfg with learners := nilAwareAdd cfg.learners id }
  (cfg, trk.insert id
    { matchIdx := 0
      matchCommit := 0
      next := max c.lastIndex 1
      inflights := .new c.maxInflight (.ofNat c.maxInflightBytes)
      isLearner
      recentActive := true })

/-- `Changer.makeVoter`. -/
def makeVoter (c : Changer) (cfg : Config) (trk : ProgressMap) (id : PeerID) :
    Config × ProgressMap :=
  match trk[id]? with
  | none => c.initProgress cfg trk id false
  | some pr =>
    ({ cfg with
        learners := nilAwareDelete cfg.learners id
        learnersNext := nilAwareDelete cfg.learnersNext id
        voters := { cfg.voters with incoming := insert id cfg.voters.incoming } },
      trk.insert id { pr with isLearner := false })

/-- `Changer.remove`. -/
def remove (cfg : Config) (trk : ProgressMap) (id : PeerID) : Config × ProgressMap :=
  if !trk.contains id then (cfg, trk)
  else
    let cfg := { cfg with
      voters := { cfg.voters with incoming := cfg.voters.incoming.erase id }
      learners := nilAwareDelete cfg.learners id
      learnersNext := nilAwareDelete cfg.learnersNext id }
    -- A peer that is still a voter of the outgoing config keeps its progress.
    if id ∉ cfg.voters.outgoingIDs then (cfg, trk.erase id) else (cfg, trk)

/-- `Changer.makeLearner`. -/
def makeLearner (c : Changer) (cfg : Config) (trk : ProgressMap) (id : PeerID) :
    Config × ProgressMap :=
  match trk[id]? with
  | none => c.initProgress cfg trk id true
  | some pr =>
    if pr.isLearner then (cfg, trk)
    else
      let (cfg, trk) := remove cfg trk id
      if id ∈ cfg.voters.outgoingIDs then
        ({ cfg with learnersNext := nilAwareAdd cfg.learnersNext id }, trk.insert id pr)
      else
        ({ cfg with learners := nilAwareAdd cfg.learners id },
          trk.insert id { pr with isLearner := true })

/-- One pass of the loop of `Changer.apply`. -/
def applySingle (c : Changer) (st : Config × ProgressMap) (cc : ConfChangeSingle) : ConfResult :=
  if cc.nodeID = 0 then pure st
  else
    match cc.type with
    | .addNode => pure (c.makeVoter st.1 st.2 cc.nodeID)
    | .addLearnerNode => pure (c.makeLearner st.1 st.2 cc.nodeID)
    | .removeNode => pure (remove st.1 st.2 cc.nodeID)
    | .updateNode => pure st
    | .unknown n => throw (.unexpectedConfType n)

/-- `Changer.apply`. -/
def apply (c : Changer) (cfg : Config) (trk : ProgressMap) (ccs : List ConfChangeSingle) :
    ConfResult := do
  let (cfg, trk) ← ccs.foldlM c.applySingle (cfg, trk)
  if cfg.voters.incoming.card = 0 then throw .removedAllVoters
  return (cfg, trk)

/-- `Changer.EnterJoint`. -/
def enterJoint (c : Changer) (autoLeave : Bool) (ccs : List ConfChangeSingle) : ConfResult := do
  let (cfg, trk) ← c.checkAndCopy
  if joint cfg then throw .alreadyJoint
  if cfg.voters.incoming.card = 0 then throw .zeroVoterJoint
  -- Copy incoming to outgoing.
  let cfg := { cfg with
    voters := { cfg.voters with outgoing := some cfg.voters.incoming } }
  let (cfg, trk) ← c.apply cfg trk ccs
  checkAndReturn { cfg with autoLeave } trk

/-- `Changer.LeaveJoint`. -/
def leaveJoint (c : Changer) : ConfResult := do
  let (cfg, trk) ← c.checkAndCopy
  if !joint cfg then throw .notJoint
  let staged := ascending cfg.learnersNextIDs
  let learners := staged.foldl nilAwareAdd cfg.learners
  let trk := staged.foldl (fun trk id => trk.modify id fun pr => { pr with isLearner := true }) trk
  let cfg := { cfg with learners, learnersNext := none }
  let gone := (ascending cfg.voters.outgoingIDs).filter fun id =>
    id ∉ cfg.voters.incoming ∧ id ∉ cfg.learnerIDs
  let trk := gone.foldl (fun trk id => trk.erase id) trk
  let cfg := { cfg with voters := { cfg.voters with outgoing := none }, autoLeave := false }
  checkAndReturn cfg trk

/-- `Changer.Simple`. -/
def simple (c : Changer) (ccs : List ConfChangeSingle) : ConfResult := do
  let (cfg, trk) ← c.checkAndCopy
  if joint cfg then throw .simpleInJoint
  let (cfg, trk) ← c.apply cfg trk ccs
  if symdiff c.config.voters.incoming cfg.voters.incoming > 1 then throw .moreThanOneVoter
  checkAndReturn cfg trk

end Changer

/-- `toConfChangeSingle`. -/
def toConfChangeSingle (cs : ConfState) : List ConfChangeSingle × List ConfChangeSingle :=
  (cs.votersOutgoing.map (⟨.addNode, ·⟩),
    cs.votersOutgoing.map (⟨.removeNode, ·⟩) ++ cs.voters.map (⟨.addNode, ·⟩) ++
      cs.learners.map (⟨.addLearnerNode, ·⟩) ++ cs.learnersNext.map (⟨.addLearnerNode, ·⟩))

/-- `chain`. -/
def chain (chg : Changer) : List (Changer → ConfResult) → ConfResult
  | [] => pure (chg.config, chg.progressMap)
  | op :: ops => do
      let (cfg, progressMap) ← op chg
      chain { chg with config := cfg, progressMap } ops

/-- `Restore`. -/
def restore (chg : Changer) (cs : ConfState) : ConfResult :=
  let (outgoing, incoming) := toConfChangeSingle cs
  if outgoing.length = 0 then
    chain chg (incoming.map fun cc chg => chg.simple [cc])
  else
    chain chg (outgoing.map (fun cc chg => chg.simple [cc]) ++
      [fun chg => chg.enterJoint cs.autoLeave incoming])

end Cockroach.Raft.Confchange
