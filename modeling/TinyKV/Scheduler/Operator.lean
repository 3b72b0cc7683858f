import TinyKV.Scheduler.Region

/-!
# Operators

The operators of `scheduler/server/schedule/operator/operator.go`, and the controller of
`scheduler/server/schedule/operator_controller.go` that runs them.
-/

namespace TinyKV

namespace RegionInfo

def leaderStoreId (region : RegionInfo) : ℕ := (region.leader.map Peer.storeId).getD 0

def getStorePeer (region : RegionInfo) (storeId : ℕ) : Option Peer :=
  region.peers.find? fun peer => peer.storeId = storeId

def getStoreVoter (region : RegionInfo) (storeId : ℕ) : Option Peer :=
  region.getVoters.find? fun peer => peer.storeId = storeId

def getPendingVoter (region : RegionInfo) (peerId : ℕ) : Option Peer :=
  region.pendingPeers.find? fun peer => peer.id = peerId

def getFollowers (region : RegionInfo) : AList fun _ : ℕ => Peer :=
  region.getVoters.foldl (fun followers peer =>
    if region.leader = none ∨ region.leaderId ≠ peer.id then followers.insert peer.storeId peer
    else followers) ∅

end RegionInfo

inductive OpStep
  | transferLeader (fromStore toStore : ℕ)
  | addPeer (toStore peerId : ℕ)
  | removePeer (fromStore : ℕ)
deriving DecidableEq, Repr

namespace OpStep

def isFinish (region : RegionInfo) : OpStep → Bool
  | transferLeader _ toStore => region.leaderStoreId = toStore
  | addPeer toStore peerId =>
    match region.getStoreVoter toStore with
    | some p => if p.id ≠ peerId then false else (region.getPendingVoter p.id).isNone
    | none => false
  | removePeer fromStore => (region.getStorePeer fromStore).isNone

def confVerChanged (region : RegionInfo) : OpStep → Bool
  | transferLeader _ _ => false
  | addPeer toStore peerId =>
    match region.getStoreVoter toStore with
    | some p => p.id = peerId
    | none => false
  | removePeer fromStore => (region.getStorePeer fromStore).isNone

end OpStep

def opLeader : ℕ := 1

def opRegion : ℕ := 2

def opAdmin : ℕ := 4

def opReplica : ℕ := 16

def opBalance : ℕ := 32

def normalPriority : ℕ := 1

def highPriority : ℕ := 2

def regionOperatorWaitTime : ℕ := 10 * 60 * 1000000000

def leaderOperatorWaitTime : ℕ := 10 * 1000000000

structure Operator where
  regionId : ℕ
  confVer : ℕ
  version : ℕ
  kind : ℕ
  steps : List OpStep
  currentStep : ℕ := 0
  level : ℕ
  addr : ℕ := 0
deriving DecidableEq, Repr

namespace Operator

def newOperator (region : RegionInfo) (kind : ℕ) (steps : List OpStep) : Operator where
  regionId := region.id
  confVer := region.confVer
  version := region.version
  kind := kind
  steps := steps
  level := if kind &&& opAdmin ≠ 0 then highPriority else normalPriority

def checkFrom (region : RegionInfo) : List OpStep → ℕ → ℕ × Option OpStep
  | [], step => (step, none)
  | st :: steps, step =>
    if st.isFinish region then checkFrom region steps (step + 1) else (step, some st)

def check (o : Operator) (region : RegionInfo) : Operator × Option OpStep :=
  let (step, next) := checkFrom region (o.steps.drop o.currentStep) o.currentStep
  ({ o with currentStep := step }, next)

def confVerChanged (o : Operator) (region : RegionInfo) : ℕ :=
  let current := if o.currentStep = o.steps.length then o.steps.length else o.currentStep + 1
  (o.steps.take current).countP (·.confVerChanged region)

def isFinish (o : Operator) : Bool := o.steps.length ≤ o.currentStep

def isTimeout (o : Operator) (running : ℕ) : Bool :=
  if o.isFinish then false
  else if o.kind &&& opRegion ≠ 0 then regionOperatorWaitTime < running
  else leaderOperatorWaitTime < running

/-- There is no suitable store to become region leader. -/
inductive OperatorErr
  | noSuitableStore
deriving DecidableEq, Repr

def findAvailableStore (hasStore : ℕ → Bool) (storeIds : List ℕ) : ℕ :=
  (storeIds.find? hasStore).getD 0

def transferLeaderToSuitableSteps (hasStore : ℕ → Bool) (leaderId : ℕ) (storeIds : List ℕ) :
    Except OperatorErr (ℕ × List OpStep) :=
  let id := findAvailableStore hasStore storeIds
  if id ≠ 0 then .ok (opLeader, [.transferLeader leaderId id]) else .error .noSuitableStore

def transferLeaderStep (hasStore : ℕ → Bool) (region : RegionInfo) (storeId : ℕ)
    (followerIds : List ℕ) : Except OperatorErr (ℕ × List OpStep) :=
  if region.leader ≠ none ∧ region.leaderStoreId = storeId then
    transferLeaderToSuitableSteps hasStore storeId followerIds
  else .ok (0, [])

def removePeerSteps (hasStore : ℕ → Bool) (region : RegionInfo) (storeId : ℕ)
    (followerIds : List ℕ) : Except OperatorErr (ℕ × List OpStep) := do
  let (kind, steps) ← transferLeaderStep hasStore region storeId followerIds
  return (kind ||| opRegion, steps ++ [.removePeer storeId])

def createAddPeerSteps (newStore peerId : ℕ) : List OpStep := [.addPeer newStore peerId]

def createAddPeerOperator (region : RegionInfo) (peerId toStoreId kind : ℕ) : Operator :=
  newOperator region (kind ||| opRegion) (createAddPeerSteps toStoreId peerId)

def createTransferLeaderOperator (region : RegionInfo) (sourceStoreId targetStoreId kind : ℕ) :
    Operator :=
  newOperator region (kind ||| opLeader) [.transferLeader sourceStoreId targetStoreId]

def createRemovePeerOperator (hasStore : ℕ → Bool) (kind : ℕ) (region : RegionInfo)
    (followerIds : List ℕ) (storeId : ℕ) : Except OperatorErr Operator := do
  let (removeKind, steps) ← removePeerSteps hasStore region storeId followerIds
  return newOperator region (removeKind ||| kind) steps

def createMovePeerOperator (hasStore : ℕ → Bool) (kind : ℕ) (region : RegionInfo)
    (followerIds : List ℕ) (oldStore newStore peerId : ℕ) : Except OperatorErr Operator := do
  let (removeKind, steps) ← removePeerSteps hasStore region oldStore (followerIds ++ [newStore])
  let st := createAddPeerSteps newStore peerId
  return newOperator region (removeKind ||| kind ||| opRegion) (st ++ steps)

def createOfflinePeerOperator (hasStore : ℕ → Bool) (kind : ℕ) (region : RegionInfo)
    (followerIds : List ℕ) (oldStore newStore peerId : ℕ) : Except OperatorErr Operator := do
  let (k, steps) ← transferLeaderStep hasStore region oldStore followerIds
  let st := createAddPeerSteps newStore peerId
  return newOperator region (kind ||| k ||| opRegion) (steps ++ st ++ [.removePeer oldStore])

end Operator

inductive ScheduleCommand
  | transferLeader (peer : Option Peer)
  | addNode (peer : Peer)
  | removeNode (peer : Option Peer)
deriving DecidableEq, Repr

inductive OperatorStatus
  | success
  | timeout
  | cancel
  | replace
deriving DecidableEq, Repr

inductive DispatchSource
  | heartBeat
  | notifierQueue
  | create
deriving DecidableEq, Repr

structure OperatorController where
  operators : ℕ → Option Operator := fun _ => none
  regions : ℕ → Option RegionInfo := fun _ => none
  sent : List (RegionInfo × ScheduleCommand) := []
  records : List (Operator × OperatorStatus) := []

namespace OperatorController

def setOperator (oc : OperatorController) (regionId : ℕ) (op : Operator) : OperatorController :=
  { oc with operators := Function.update oc.operators regionId (some op) }

def record (oc : OperatorController) (op : Operator) (status : OperatorStatus) :
    OperatorController :=
  { oc with records := oc.records ++ [(op, status)] }

def removeOperatorLocked (oc : OperatorController) (op : Operator) : OperatorController × Bool :=
  if (oc.operators op.regionId).map Operator.addr = some op.addr then
    ({ oc with operators := Function.update oc.operators op.regionId none }, true)
  else (oc, false)

def removeOperator (oc : OperatorController) (op : Operator) (status : OperatorStatus) :
    OperatorController :=
  let (oc, found) := oc.removeOperatorLocked op
  if found then oc.record op status else oc

def sendMsg (oc : OperatorController) (region : RegionInfo) (cmd : ScheduleCommand) :
    OperatorController :=
  if region.leader = none then oc else { oc with sent := oc.sent ++ [(region, cmd)] }

def sendScheduleCommand (oc : OperatorController) (region : RegionInfo) :
    OpStep → OperatorController
  | .transferLeader _ toStore => oc.sendMsg region (.transferLeader (region.getStorePeer toStore))
  | .addPeer toStore peerId =>
    -- The newly added peer is pending.
    if region.getStorePeer toStore ≠ none then oc
    else oc.sendMsg region (.addNode ⟨peerId, toStore⟩)
  | .removePeer fromStore => oc.sendMsg region (.removeNode (region.getStorePeer fromStore))

def sendOrCancel (oc : OperatorController) (region : RegionInfo) (source : DispatchSource)
    (op : Operator) (step : OpStep) : OperatorController :=
  let changes := sub64 region.confVer op.confVer
  if source = .heartBeat ∧ op.confVerChanged region < changes then oc.removeOperator op .cancel
  else oc.sendScheduleCommand region step

def finish (oc : OperatorController) (op : Operator) (timeout : Bool) : OperatorController :=
  if op.isFinish then oc.removeOperator op .success
  else if timeout then oc.removeOperator op .timeout
  else oc

def dispatch (oc : OperatorController) (region : RegionInfo) (source : DispatchSource)
    (running : ℕ) : OperatorController :=
  match oc.operators region.id with
  | none => oc
  | some op =>
    let timeout := op.isTimeout running
    let checked := op.check region
    let oc := oc.setOperator region.id checked.1
    match checked.2, timeout with
    | some step, false => oc.sendOrCancel region source checked.1 step
    | _, _ => oc.finish checked.1 timeout

def checkAddOperator (oc : OperatorController) (ops : List Operator) : Bool :=
  ops.all fun op =>
    match oc.regions op.regionId with
    | none => false
    | some region =>
      region.version = op.version && region.confVer = op.confVer &&
        match oc.operators op.regionId with
        | some old => old.level < op.level
        | none => true

def replaceOperator (oc : OperatorController) (op : Operator) : OperatorController :=
  match oc.operators op.regionId with
  | some old => ((oc.removeOperatorLocked old).1.record old .replace).setOperator op.regionId op
  | none => oc.setOperator op.regionId op

def addOperatorLocked (oc : OperatorController) (op : Operator) : OperatorController :=
  let oc := oc.replaceOperator op
  match oc.regions op.regionId with
  | none => oc
  | some region =>
    let checked := op.check region
    let oc := oc.setOperator op.regionId checked.1
    match checked.2 with
    | some step => oc.sendScheduleCommand region step
    | none => oc

def addOperator (oc : OperatorController) (ops : List Operator) : OperatorController × Bool :=
  if oc.checkAddOperator ops then (ops.foldl addOperatorLocked oc, true)
  else (ops.foldl (fun oc op => oc.record op .cancel) oc, false)

end OperatorController

inductive CreateOperator
  | removePeer (storeId : ℕ)
  | movePeer (oldStore newStore peerId : ℕ)
  | offlinePeer (oldStore newStore peerId : ℕ)

/-- An operator that is made for a region. -/
structure CreateRequest where
  regionId : ℕ
  create : CreateOperator
  kind : ℕ
  hasStore : ℕ → Bool
  followerIds : List ℕ
  level : Option ℕ := none
  addr : ℕ := 0

def CreateRequest.operator (req : CreateRequest) (region : RegionInfo) :
    Except Operator.OperatorErr Operator :=
  match req.create with
  | .removePeer storeId =>
    Operator.createRemovePeerOperator req.hasStore req.kind region req.followerIds storeId
  | .movePeer oldStore newStore peerId =>
    Operator.createMovePeerOperator req.hasStore req.kind region req.followerIds oldStore newStore
      peerId
  | .offlinePeer oldStore newStore peerId =>
    Operator.createOfflinePeerOperator req.hasStore req.kind region req.followerIds oldStore
      newStore peerId

inductive OperatorEvent
  | report (region : RegionInfo)
  | dispatch (region : RegionInfo) (source : DispatchSource) (running : ℕ)
  | add (requests : List CreateRequest)
  | remove (regionId : ℕ)

namespace OperatorController

def create (oc : OperatorController) (req : CreateRequest) : Option Operator := do
  let region ← oc.regions req.regionId
  if req.followerIds.Perm region.getFollowers.keys then
    let op ← (req.operator region).toOption
    some { op with level := req.level.getD op.level, addr := req.addr }
  else none

def machine : Machine OperatorController OperatorEvent where
  step oc
    | .report region =>
      some { oc with regions := Function.update oc.regions region.id (some region) }
    | .dispatch region source running => some (oc.dispatch region source running)
    | .add requests => do
      let ops ← requests.mapM oc.create
      some (oc.addOperator ops).1
    | .remove regionId =>
      match oc.operators regionId with
      | some op => some (oc.removeOperatorLocked op).1
      | none => none

end OperatorController

end TinyKV
