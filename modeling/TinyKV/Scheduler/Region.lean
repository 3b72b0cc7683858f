import Mathlib.Data.List.AList
import Mathlib.Logic.Function.Basic
import TinyKV.Go
import TinyKV.Machine
import TinyKV.RangeList
import TinyKV.Bytes

/-!
# The regions that the scheduler knows

`scheduler/server/core/region.go` and `region_tree.go`.
-/

namespace TinyKV

structure Peer where
  id : ℕ
  storeId : ℕ
deriving DecidableEq, Repr

structure RegionInfo where
  id : ℕ
  startKey : Bytes := []
  endKey : Bytes := []
  confVer : ℕ := 0
  version : ℕ := 0
  peers : List Peer := []
  learners : List Peer := []
  leader : Option Peer := none
  pendingPeers : List Peer := []
  approximateSize : ℤ := 0
deriving DecidableEq, Repr

namespace RegionInfo

def getVoters (region : RegionInfo) : List Peer := region.peers

def leaderId (region : RegionInfo) : ℕ := (region.leader.map Peer.id).getD 0

def contains (region : RegionInfo) (key : Bytes) : Bool :=
  region.startKey ≤ key && (region.endKey = [] || key < region.endKey)

end RegionInfo

abbrev RegionTree := List RegionInfo

namespace RegionTree

def find (t : RegionTree) (region : RegionInfo) : Option RegionInfo :=
  match (OrderedList.descendLessOrEqual RegionInfo.startKey region.startKey t).head? with
  | none => none
  | some result => if result.contains region.startKey then some result else none

def getOverlaps (t : RegionTree) (region : RegionInfo) : List RegionInfo :=
  let result := (t.find region).getD region
  (OrderedList.ascendGreaterOrEqual RegionInfo.startKey result.startKey t).takeWhile fun item =>
    !(region.endKey ≠ [] && region.endKey ≤ item.startKey)

def update (t : RegionTree) (region : RegionInfo) : RegionTree × List RegionInfo :=
  let overlaps := t.getOverlaps region
  let t := overlaps.foldl (fun t item => OrderedList.delete RegionInfo.startKey item.startKey t) t
  (OrderedList.replaceOrInsert RegionInfo.startKey region t, overlaps)

def remove (t : RegionTree) (region : RegionInfo) : RegionTree :=
  if t.length = 0 then t
  else
    match t.find region with
    | none => t
    | some result =>
      if result.id ≠ region.id then t
      else OrderedList.delete RegionInfo.startKey result.startKey t

end RegionTree

structure RegionSubTree where
  tree : RegionTree := []
  totalSize : ℤ := 0

namespace RegionSubTree

def update (rst : RegionSubTree) (region : RegionInfo) : RegionSubTree :=
  match rst.tree.find region with
  | some r =>
    { tree := rst.tree.map fun x => if x = r then region else x
      totalSize := int64 (rst.totalSize + int64 (region.approximateSize - r.approximateSize)) }
  | none =>
    { tree := (rst.tree.update region).1
      totalSize := int64 (rst.totalSize + region.approximateSize) }

def remove (rst : RegionSubTree) (region : RegionInfo) : RegionSubTree :=
  if rst.tree.length = 0 then rst else { rst with tree := rst.tree.remove region }

def getTotalSize (rst : RegionSubTree) : ℤ := if rst.tree.length = 0 then 0 else rst.totalSize

end RegionSubTree

structure RegionMap where
  m : AList fun _ : ℕ => RegionInfo := ∅
  totalSize : ℤ := 0

namespace RegionMap

def get (rm : RegionMap) (id : ℕ) : Option RegionInfo := rm.m.lookup id

def put (rm : RegionMap) (region : RegionInfo) : RegionMap :=
  let totalSize :=
    match rm.m.lookup region.id with
    | some old => int64 (rm.totalSize - old.approximateSize)
    | none => rm.totalSize
  { m := rm.m.insert region.id region
    totalSize := int64 (totalSize + region.approximateSize) }

def delete (rm : RegionMap) (id : ℕ) : RegionMap :=
  match rm.m.lookup id with
  | some old => { m := rm.m.erase id, totalSize := int64 (rm.totalSize - old.approximateSize) }
  | none => rm

end RegionMap

/-- What a peer of a region is on its store: the maps of `RegionsInfo` from stores to sub-trees. -/
inductive Role
  | leader
  | follower
  | learner
  | pending
deriving DecidableEq, Repr

structure RegionsInfo where
  tree : RegionTree := []
  regions : RegionMap := {}
  subTrees : Role → ℕ → RegionSubTree := fun _ _ => {}

namespace RegionsInfo

def leaders (r : RegionsInfo) : ℕ → RegionSubTree := r.subTrees .leader

def followers (r : RegionsInfo) : ℕ → RegionSubTree := r.subTrees .follower

def learners (r : RegionsInfo) : ℕ → RegionSubTree := r.subTrees .learner

def pendingPeers (r : RegionsInfo) : ℕ → RegionSubTree := r.subTrees .pending

def modify (r : RegionsInfo) (role : Role) (storeId : ℕ) (f : RegionSubTree → RegionSubTree) :
    RegionsInfo :=
  { r with
    subTrees := Function.update r.subTrees role
      (Function.update (r.subTrees role) storeId (f (r.subTrees role storeId))) }

def getRegion (r : RegionsInfo) (regionId : ℕ) : Option RegionInfo := r.regions.get regionId

def addPeers (r : RegionsInfo) (region : RegionInfo) : RegionsInfo :=
  let r := region.getVoters.foldl (fun r peer =>
    if peer.id = region.leaderId then r.modify .leader peer.storeId (·.update region)
    else r.modify .follower peer.storeId (·.update region)) r
  let r := region.learners.foldl (fun r peer =>
    r.modify .learner peer.storeId (·.update region)) r
  region.pendingPeers.foldl (fun r peer => r.modify .pending peer.storeId (·.update region)) r

def removeRegion (r : RegionsInfo) (region : RegionInfo) : RegionsInfo :=
  let r := { r with
    tree := r.tree.remove region
    regions := r.regions.delete region.id }
  region.peers.foldl (fun r peer =>
    let r := r.modify .leader peer.storeId (·.remove region)
    let r := r.modify .follower peer.storeId (·.remove region)
    let r := r.modify .learner peer.storeId (·.remove region)
    r.modify .pending peer.storeId (·.remove region)) r

def addRegion (r : RegionsInfo) (region : RegionInfo) : Go (RegionsInfo × List RegionInfo) := do
  let (tree, overlaps) := r.tree.update region
  let r ← overlaps.foldlM (fun r item => do
    let removed ← Go.deref (r.getRegion item.id)
    return r.removeRegion removed) { r with tree := tree }
  let r := { r with regions := r.regions.put region }
  return (r.addPeers region, overlaps)

def setRegion (r : RegionsInfo) (region : RegionInfo) : Go (RegionsInfo × List RegionInfo) :=
  match r.regions.get region.id with
  | some origin => (r.removeRegion origin).addRegion region
  | none => r.addRegion region

def getStoreLeaderRegionSize (r : RegionsInfo) (storeId : ℕ) : ℤ := (r.leaders storeId).getTotalSize

def getStoreFollowerRegionSize (r : RegionsInfo) (storeId : ℕ) : ℤ :=
  (r.followers storeId).getTotalSize

def getStoreLearnerRegionSize (r : RegionsInfo) (storeId : ℕ) : ℤ :=
  (r.learners storeId).getTotalSize

def getStoreRegionSize (r : RegionsInfo) (storeId : ℕ) : ℤ :=
  int64 (r.getStoreLeaderRegionSize storeId + r.getStoreFollowerRegionSize storeId +
    r.getStoreLearnerRegionSize storeId)

end RegionsInfo

/-- What a region from a heartbeat is like. -/
structure RegionInfo.WellFormed (region : RegionInfo) : Prop where
  range : region.endKey = [] ∨ region.startKey < region.endKey
  ids : (region.peers.map Peer.id).Nodup
  id_ne_zero : ∀ p ∈ region.peers, p.id ≠ 0
  stores : (region.peers.map Peer.storeId).Nodup
  leader : ∀ p ∈ region.leader, p ∈ region.peers
  pending : ∀ p ∈ region.pendingPeers, p ∈ region.peers
  learners : region.learners = []

instance (region : RegionInfo) : Decidable region.WellFormed :=
  decidable_of_iff ((region.endKey = [] ∨ region.startKey < region.endKey) ∧
    (region.peers.map Peer.id).Nodup ∧ (∀ p ∈ region.peers, p.id ≠ 0) ∧
    (region.peers.map Peer.storeId).Nodup ∧ (∀ p ∈ region.leader, p ∈ region.peers) ∧
    (∀ p ∈ region.pendingPeers, p ∈ region.peers) ∧ region.learners = [])
    ⟨fun ⟨h1, h2, h3, h4, h5, h6, h7⟩ => ⟨h1, h2, h3, h4, h5, h6, h7⟩,
      fun ⟨h1, h2, h3, h4, h5, h6, h7⟩ => ⟨h1, h2, h3, h4, h5, h6, h7⟩⟩

inductive RegionEvent
  | set (region : RegionInfo)
  | remove (region : RegionInfo)

def RegionsInfo.machine : Machine RegionsInfo RegionEvent where
  step r
    | .set region =>
      if region.WellFormed then (r.setRegion region).toOption.map Prod.fst else none
    | .remove region =>
      if r.getRegion region.id = some region then some (r.removeRegion region) else none

end TinyKV
