import Mathlib.Data.List.Dedup
import TinyKV.Scheduler.OperatorSteps
import TinyKV.Scheduler.Store

/-!
# The replica checker

`ReplicaChecker` of `scheduler/server/schedule/checker/replica_checker.go`.
-/

namespace TinyKV

open List

namespace RegionInfo

def getStoreIds (region : RegionInfo) : List ℕ := region.stores.dedup

@[simp]
theorem mem_getStoreIds {region : RegionInfo} {s : ℕ} :
    s ∈ region.getStoreIds ↔ s ∈ region.stores := mem_dedup

def withRemoveStorePeer (region : RegionInfo) (storeId : ℕ) : RegionInfo :=
  { region with peers := region.peers.filter (·.storeId ≠ storeId), learners := [] }

end RegionInfo

namespace ReplicaChecker

structure Draw where
  stores : List StoreInfo
  storeIds : List ℕ
  followerIds : List ℕ
  peerId : Option ℕ

structure Draw.Fits (d : Draw) (c : RaftCluster) (region : RegionInfo) : Prop where
  stores : d.stores.Perm c.stores.getStores
  storeIds : d.storeIds.Perm region.getStoreIds
  followerIds : d.followerIds.Perm region.getFollowers.keys

def filters : List Filter := [.health]

def allocPeer (d : Draw) (storeId : ℕ) : Option Peer := d.peerId.map fun id => ⟨id, storeId⟩

def selectBestStoreToAddReplica (c : RaftCluster) (region : RegionInfo) (extra : List Filter)
    (d : Draw) : ℕ :=
  let newFilters := [Filter.state, .excluded [] region.getStoreIds]
  let s := ReplicaSelector.mk filters
  match s.selectTarget c d.stores (extra ++ filters ++ newFilters) with
  | none => 0
  | some target => target.id

def selectBestReplacementStore (c : RaftCluster) (region : RegionInfo) (oldPeer : Peer)
    (extra : List Filter) (d : Draw) : ℕ :=
  let extra := extra ++ [.excluded [] region.getStoreIds]
  selectBestStoreToAddReplica c (region.withRemoveStorePeer oldPeer.storeId) extra d

def selectBestPeerToAddReplica (c : RaftCluster) (region : RegionInfo) (extra : List Filter)
    (d : Draw) : Option Peer :=
  let storeId := selectBestStoreToAddReplica c region extra d
  if storeId = 0 then none else allocPeer d storeId

def selectWorstPeer (c : RaftCluster) (region : RegionInfo) (d : Draw) : Option Peer :=
  let s := ReplicaSelector.mk filters
  match s.selectSource c (c.getRegionStores d.storeIds) with
  | none => none
  | some worstStore => region.getStorePeer worstStore.id

inductive PeerStatus
  | offline
  | down
deriving DecidableEq, Repr

def fixPeer (c : RaftCluster) (region : RegionInfo) (peer : Peer) (status : PeerStatus) (d : Draw) :
    Option Operator :=
  if c.maxReplicas < region.peers.length then
    (Operator.createRemovePeerOperator c.hasStore opReplica region d.followerIds
      peer.storeId).toOption
  else
    let storeId := selectBestReplacementStore c region peer [] d
    if storeId = 0 then none
    else
      match allocPeer d storeId with
      | none => none
      | some newPeer =>
        match status with
        | .offline =>
          (Operator.createOfflinePeerOperator c.hasStore opReplica region d.followerIds
            peer.storeId newPeer.storeId newPeer.id).toOption
        | .down =>
          (Operator.createMovePeerOperator c.hasStore opReplica region d.followerIds
            peer.storeId newPeer.storeId newPeer.id).toOption

def checkOfflinePeers (c : RaftCluster) (region : RegionInfo) (d : Draw) :
    List Peer → Option Operator
  | [] => none
  | peer :: peers =>
    match c.stores.getStore peer.storeId with
    | none => none
    | some store =>
      if store.isUp then checkOfflinePeers c region d peers
      else fixPeer c region peer .offline d

def checkOfflinePeer (c : RaftCluster) (region : RegionInfo) (d : Draw) : Option Operator :=
  if region.learners.length ≠ 0 then none else checkOfflinePeers c region d region.peers

def check (c : RaftCluster) (region : RegionInfo) (fix rest : Draw) : Option Operator :=
  match checkOfflinePeer c region fix with
  | some op => some { op with level := highPriority }
  | none =>
    if region.peers.length < c.maxReplicas then
      match selectBestPeerToAddReplica c region [] rest with
      | none => none
      | some newPeer =>
        some (Operator.createAddPeerOperator region newPeer.id newPeer.storeId opReplica)
    else if region.getVoters.length > c.maxReplicas then
      match selectWorstPeer c region rest with
      | none => none
      | some oldPeer =>
        (Operator.createRemovePeerOperator c.hasStore opReplica region rest.followerIds
          oldPeer.storeId).toOption
    else none

structure Eligible (c : RaftCluster) (region : RegionInfo) (store : StoreInfo) : Prop where
  up : store.isUp = true
  healthy : c.Healthy store
  hosts : store.id ∉ region.stores

def Best (c : RaftCluster) (region : RegionInfo) (storeId : ℕ) : Prop :=
  ∃ store, c.stores.getStore storeId = some store ∧ Eligible c region store ∧
    ∀ other ∈ c.stores.getStores, Eligible c region other → store.regionSize ≤ other.regionSize

variable {c : RaftCluster} {region region' : RegionInfo} {d : Draw} {store : StoreInfo}
  {extra : List Filter} {s : ℕ}

theorem anyTarget_eq_false : Filter.anyTarget c store
      (extra ++ filters ++ [.state, .excluded [] region.getStoreIds]) = false ↔
    Filter.anyTarget c store extra = false ∧ Eligible c region store := by
  rw [Filter.anyTarget_append, Filter.anyTarget_append, and_assoc]
  refine and_congr_right fun _ => ?_
  simp only [Filter.anyTarget, filters, Filter.target, any_cons, any_nil, Bool.or_false,
    Bool.or_eq_false_iff, Bool.not_eq_false', decide_eq_false_iff_not,
    RegionInfo.mem_getStoreIds, Filter.healthFilter_eq_false]
  constructor
  · rintro ⟨hhealthy, hup, hhosts⟩
    exact ⟨hup, hhealthy, hhosts⟩
  · rintro ⟨hup, hhealthy, hhosts⟩
    exact ⟨hhealthy, hup, hhosts⟩

theorem best_of_select (hstores : d.stores.Perm c.stores.getStores)
    (hfilters : ∀ store, Filter.anyTarget c store extra = false ∧ Eligible c region' store ↔
      Eligible c region store) (hne : selectBestStoreToAddReplica c region' extra d ≠ 0) :
    Best c region (selectBestStoreToAddReplica c region' extra d) := by
  unfold selectBestStoreToAddReplica at hne ⊢
  dsimp only at hne ⊢
  cases hselect : (ReplicaSelector.mk filters).selectTarget c d.stores
      (extra ++ filters ++ [.state, .excluded [] region'.getStoreIds]) with
  | none =>
    rw [hselect] at hne
    exact absurd rfl hne
  | some target =>
    obtain ⟨hmem, hpass, hmin⟩ := ReplicaSelector.selectTarget_spec hselect
    have hfound := StoresInfo.mem_getStores.mp (hstores.mem_iff.mp hmem)
    refine ⟨target, hfound, (hfilters target).mp (anyTarget_eq_false.mp hpass), ?_⟩
    intro other hother heligible
    exact hmin other (hstores.mem_iff.mpr hother)
      (anyTarget_eq_false.mpr ((hfilters other).mpr heligible))

theorem select_ne_zero (hstores : d.stores.Perm c.stores.getStores)
    (hmem : store ∈ c.stores.getStores) (hpass : Filter.anyTarget c store extra = false)
    (heligible : Eligible c region store) : selectBestStoreToAddReplica c region extra d ≠ 0 := by
  have hfilters : filters ⊆ extra ++ filters ++ [.state, .excluded [] region.getStoreIds] := by
    intro f hf
    exact mem_append_left _ (mem_append_right _ hf)
  obtain ⟨target, htarget⟩ := ReplicaSelector.exists_selectTarget (s := ⟨filters⟩) hfilters
    (hstores.mem_iff.mpr hmem) (anyTarget_eq_false.mpr ⟨hpass, heligible⟩)
  have hfound := (ReplicaSelector.selectTarget_spec htarget).1
  unfold selectBestStoreToAddReplica
  dsimp only
  rw [htarget]
  exact StoresInfo.ne_zero_of_getStore (StoresInfo.mem_getStores.mp (hstores.mem_iff.mp hfound))

theorem replacement_filters (oldPeer : Peer) (store : StoreInfo) :
    Filter.anyTarget c store [.excluded [] region.getStoreIds] = false ∧
      Eligible c (region.withRemoveStorePeer oldPeer.storeId) store ↔ Eligible c region store := by
  have hexcluded : Filter.anyTarget c store [.excluded [] region.getStoreIds] = false ↔
      store.id ∉ region.stores := by
    simp [Filter.anyTarget, Filter.target]
  have hsubset : ∀ s, s ∈ (region.withRemoveStorePeer oldPeer.storeId).stores →
      s ∈ region.stores := by
    intro s hs
    obtain ⟨p, hp, rfl⟩ := RegionInfo.mem_stores.mp hs
    exact RegionInfo.mem_stores.mpr ⟨p, (mem_filter.mp hp).1, rfl⟩
  rw [hexcluded]
  constructor
  · rintro ⟨hhosts, heligible⟩
    exact ⟨heligible.up, heligible.healthy, hhosts⟩
  · intro heligible
    exact ⟨heligible.hosts, heligible.up, heligible.healthy,
      fun hmem => heligible.hosts (hsubset _ hmem)⟩

theorem best_replacement (hd : d.Fits c region) {oldPeer : Peer}
    (hne : selectBestReplacementStore c region oldPeer [] d ≠ 0) :
    Best c region (selectBestReplacementStore c region oldPeer [] d) :=
  best_of_select hd.stores (replacement_filters oldPeer) hne

theorem best_addition (hd : d.Fits c region) (hne : selectBestStoreToAddReplica c region [] d ≠ 0) :
    Best c region (selectBestStoreToAddReplica c region [] d) := by
  refine best_of_select hd.stores (fun store => ?_) hne
  simp [Filter.anyTarget]

def nonUp (c : RaftCluster) (storeId : ℕ) : Bool :=
  (c.stores.getStore storeId).any fun store => !store.isUp

def request (c : RaftCluster) (region : RegionInfo) (d : Draw) (create : CreateOperator) :
    CreateRequest where
  regionId := region.id
  create := create
  kind := opReplica
  hasStore := c.hasStore
  followerIds := d.followerIds

inductive Plan (c : RaftCluster) (region : RegionInfo) : List OpStep → Prop
  | remove {d : Draw} {op : Operator} {old : ℕ} (hcount : c.maxReplicas < region.peers.length)
    (hold : old ∈ region.stores)
    (h : (request c region d (.removePeer old)).operator region = .ok op) : Plan c region op.steps
  | replace {d : Draw} {op : Operator} {old new peerId : ℕ} (hold : old ∈ region.stores)
    (hup : nonUp c old = true) (hnew : Best c region new)
    (h : (request c region d (.offlinePeer old new peerId)).operator region = .ok op) :
    Plan c region op.steps
  | add {new peerId : ℕ} (hcount : region.peers.length < c.maxReplicas)
    (hnew : Best c region new) : Plan c region [.addPeer new peerId]

theorem toOption_eq_some {made : Except Operator.OperatorErr Operator} {op : Operator}
    (h : made.toOption = some op) : made = .ok op := by
  cases made with
  | error err => cases h
  | ok op' => exact congrArg Except.ok (Option.some.inj h)

variable {op : Operator} {peer : Peer}

theorem plan_of_fixPeer (hd : d.Fits c region) (hpeer : peer ∈ region.peers)
    (hup : nonUp c peer.storeId = true) (h : fixPeer c region peer .offline d = some op) :
    Plan c region op.steps := by
  have hold : peer.storeId ∈ region.stores := RegionInfo.mem_stores.mpr ⟨peer, hpeer, rfl⟩
  unfold fixPeer at h
  dsimp only at h
  split_ifs at h with hcount hzero
  · have hmade : (request c region d (.removePeer peer.storeId)).operator region = .ok op :=
      toOption_eq_some h
    exact .remove hcount hold hmade
  · unfold allocPeer at h
    cases hid : d.peerId with
    | none => simp [hid] at h
    | some peerId =>
      simp only [hid, Option.map_some] at h
      have hmade : (request c region d (.offlinePeer peer.storeId
          (selectBestReplacementStore c region peer [] d) peerId)).operator region = .ok op :=
        toOption_eq_some h
      exact .replace hold hup (best_replacement hd hzero) hmade

theorem checkOfflinePeers_eq_some {peers : List Peer}
    (h : checkOfflinePeers c region d peers = some op) :
    ∃ peer ∈ peers, nonUp c peer.storeId = true ∧ fixPeer c region peer .offline d = some op := by
  induction peers with
  | nil => cases h
  | cons peer peers ih =>
    unfold checkOfflinePeers at h
    cases hstore : c.stores.getStore peer.storeId with
    | none => simp [hstore] at h
    | some store =>
      simp only [hstore] at h
      split_ifs at h with hup
      · obtain ⟨peer', hmem, hfix⟩ := ih h
        exact ⟨peer', mem_cons_of_mem _ hmem, hfix⟩
      · refine ⟨peer, mem_cons_self, ?_, h⟩
        simp [nonUp, hstore, hup]

theorem mem_of_selectWorstPeer (h : selectWorstPeer c region d = some peer) :
    peer ∈ region.peers := by
  unfold selectWorstPeer at h
  dsimp only at h
  cases hworst : (ReplicaSelector.mk filters).selectSource c (c.getRegionStores d.storeIds) with
  | none => simp [hworst] at h
  | some store =>
    simp only [hworst] at h
    exact mem_of_find?_eq_some h

theorem check_eq_some {fix rest : Draw} (h : check c region fix rest = some op) :
    (∃ fixed, checkOfflinePeer c region fix = some fixed ∧
      op = { fixed with level := highPriority }) ∨
    checkOfflinePeer c region fix = none ∧
      (region.peers.length < c.maxReplicas ∧
          (∃ peer, selectBestPeerToAddReplica c region [] rest = some peer ∧
            op = Operator.createAddPeerOperator region peer.id peer.storeId opReplica) ∨
        c.maxReplicas < region.peers.length ∧
          ∃ peer, selectWorstPeer c region rest = some peer ∧
            (request c region rest (.removePeer peer.storeId)).operator region = .ok op) := by
  unfold check at h
  cases hoffline : checkOfflinePeer c region fix with
  | some fixed =>
    simp only [hoffline] at h
    exact .inl ⟨fixed, rfl, (Option.some.inj h).symm⟩
  | none =>
    simp only [hoffline] at h
    split_ifs at h with hfew hmany
    · cases hnew : selectBestPeerToAddReplica c region [] rest with
      | none => simp [hnew] at h
      | some peer =>
        simp only [hnew] at h
        exact .inr ⟨rfl, .inl ⟨hfew, peer, rfl, (Option.some.inj h).symm⟩⟩
    · cases hworst : selectWorstPeer c region rest with
      | none => simp [hworst] at h
      | some peer =>
        simp only [hworst] at h
        exact .inr ⟨rfl, .inr ⟨hmany, peer, rfl, toOption_eq_some h⟩⟩

theorem plan_of_check {fix rest : Draw} (hfix : fix.Fits c region) (hrest : rest.Fits c region)
    (h : check c region fix rest = some op) : Plan c region op.steps := by
  obtain ⟨fixed, hfixed, rfl⟩ | ⟨-, ⟨hfew, peer, hpeer, rfl⟩ | ⟨hmany, peer, hpeer, hmade⟩⟩ :=
    check_eq_some h
  · unfold checkOfflinePeer at hfixed
    split_ifs at hfixed
    obtain ⟨peer, hpeer, hup, hfixed⟩ := checkOfflinePeers_eq_some hfixed
    have hplan : Plan c region fixed.steps := plan_of_fixPeer hfix hpeer hup hfixed
    exact hplan
  · unfold selectBestPeerToAddReplica allocPeer at hpeer
    dsimp only at hpeer
    split_ifs at hpeer with hzero
    obtain ⟨peerId, -, rfl⟩ := Option.map_eq_some_iff.mp hpeer
    exact .add hfew (best_addition hrest hzero)
  · have hold : peer.storeId ∈ region.stores :=
      RegionInfo.mem_stores.mpr ⟨peer, mem_of_selectWorstPeer hpeer, rfl⟩
    exact .remove hmany hold hmade

def distance (c : RaftCluster) (region : RegionInfo) : ℕ :=
  ((region.peers.length : ℤ) - c.maxReplicas).natAbs

def nonUpCount (c : RaftCluster) (region : RegionInfo) : ℕ :=
  region.peers.countP fun peer => nonUp c peer.storeId

def Improves (c : RaftCluster) (region after : RegionInfo) : Prop :=
  distance c after < distance c region ∨
    after.peers.length = region.peers.length ∧ nonUpCount c after < nonUpCount c region

theorem length_stores (region : RegionInfo) : region.stores.length = region.peers.length :=
  length_map _

theorem nonUpCount_eq (c : RaftCluster) (region : RegionInfo) :
    nonUpCount c region = region.stores.countP (nonUp c) := by
  unfold nonUpCount RegionInfo.stores
  rw [countP_map]
  rfl

theorem Best.spec {new : ℕ} (h : Best c region new) :
    new ∉ region.stores ∧ nonUp c new = false := by
  obtain ⟨store, hstore, heligible, -⟩ := h
  constructor
  · rw [← StoresInfo.id_of_getStore hstore]
    exact heligible.hosts
  · simp [nonUp, hstore, heligible.up]

variable {steps : List OpStep}

theorem Plan.best (h : Plan c region steps) :
    ∀ s ∈ RegionInfo.addedStores steps, Best c region s := by
  intro s hs
  cases h with
  | remove _ _ hmade =>
    rw [CreateRequest.addedStores_operator hmade] at hs
    simp [request, CreateOperator.newStore] at hs
  | replace _ _ hnew hmade =>
    rw [CreateRequest.addedStores_operator hmade] at hs
    obtain rfl : s = _ := by simpa [request, CreateOperator.newStore] using hs
    exact hnew
  | add _ hnew =>
    obtain rfl : s = _ := by simpa [RegionInfo.addedStores] using hs
    exact hnew

theorem Plan.improves (h : Plan c region steps) (hregion : region.stores.Nodup) :
    (region.executeAll steps).stores.Nodup ∧ Improves c region (region.executeAll steps) := by
  unfold Improves distance
  rw [nonUpCount_eq, nonUpCount_eq, ← length_stores region, ← length_stores (region.executeAll _)]
  cases h with
  | @remove d op old hcount hold hmade =>
    have hstores : (region.executeAll op.steps).stores = region.stores.erase old :=
      calc (region.executeAll op.steps).stores
          = (region.stores ++ []).filter (· ≠ old) := CreateRequest.stores_operator hmade
        _ = region.stores.erase old := by
          rw [append_nil, RegionInfo.filter_stores_ne hregion]
    have hlength := length_erase_of_mem hold
    have hpos := length_pos_of_mem hold
    rw [← length_stores region] at hcount
    rw [hstores]
    exact ⟨hregion.erase old, .inl (by omega)⟩
  | @replace d op old new peerId hold hup hnew hmade =>
    obtain ⟨hhosts, hnewUp⟩ := hnew.spec
    have hne : new ≠ old := fun heq => hhosts (heq ▸ hold)
    have hstores : (region.executeAll op.steps).stores = region.stores.erase old ++ [new] :=
      calc (region.executeAll op.steps).stores
          = (region.stores ++ [new]).filter (· ≠ old) := CreateRequest.stores_operator hmade
        _ = region.stores.erase old ++ [new] := by
          rw [filter_append, RegionInfo.filter_stores_ne hregion,
            filter_cons_of_pos (by simpa using hne), filter_nil]
    have hlength := length_erase_of_mem hold
    have hpos := length_pos_of_mem hold
    -- The old store was counted once, and the new one is up.
    have hcount := (perm_cons_erase hold).countP_eq (nonUp c)
    rw [countP_cons_of_pos hup] at hcount
    rw [hstores]
    refine ⟨?_, .inr ⟨?_, ?_⟩⟩
    · rw [nodup_append_comm, singleton_append, nodup_cons]
      exact ⟨fun hmem => hhosts (mem_of_mem_erase hmem), hregion.erase old⟩
    · rw [length_append, length_singleton]
      omega
    · rw [countP_append, countP_singleton, hnewUp]
      simp only [Bool.false_eq_true, if_false]
      omega
  | @add new peerId hcount hnew =>
    have hstores : (region.executeAll [.addPeer new peerId]).stores = region.stores ++ [new] :=
      RegionInfo.stores_addPeer region new peerId
    rw [← length_stores region] at hcount
    rw [hstores]
    refine ⟨?_, .inl ?_⟩
    · rw [nodup_append_comm, singleton_append, nodup_cons]
      exact ⟨hnew.spec.1, hregion⟩
    · rw [length_append, length_singleton]
      omega

/-- An operator that `Check` returns for a region whose peers are on different stores adds peers to
the best stores only, and its execution leaves the peers on different stores and the region better
than before. -/
theorem check_improves (hregion : region.stores.Nodup) {fix rest : Draw} (hfix : fix.Fits c region)
    (hrest : rest.Fits c region) (h : check c region fix rest = some op) :
    (∀ s ∈ RegionInfo.addedStores op.steps, Best c region s) ∧
      (region.executeAll op.steps).stores.Nodup ∧
        Improves c region (region.executeAll op.steps) := by
  have hplan := plan_of_check hfix hrest h
  obtain ⟨hnodup, himproves⟩ := hplan.improves hregion
  exact ⟨hplan.best, hnodup, himproves⟩

def fiveStores : StoresInfo :=
  ((((StoresInfo.newStoresInfo.setStore { id := 1 } (by decide)).setStore
    { id := 2, state := .offline } (by decide)).setStore { id := 3 } (by decide)).setStore
    { id := 4, regionSize := 5 } (by decide)).setStore { id := 5, regionSize := 9 } (by decide)

def leaderOffline : RegionInfo :=
  { id := 1, peers := [⟨11, 1⟩, ⟨12, 2⟩, ⟨13, 3⟩], leader := some ⟨12, 2⟩ }

def leaderOfflineDraw : Draw where
  stores := fiveStores.getStores
  storeIds := [1, 2, 3]
  followerIds := [3, 1]
  peerId := some 14

theorem check_improves_leaderOffline :
    check { stores := fiveStores } leaderOffline leaderOfflineDraw leaderOfflineDraw =
      some { Operator.newOperator leaderOffline (opReplica ||| opLeader ||| opRegion)
        [.transferLeader 2 3, .addPeer 4 14, .removePeer 2] with level := highPriority } ∧
    Best { stores := fiveStores } leaderOffline 4 := by
  have hcheck : check { stores := fiveStores } leaderOffline leaderOfflineDraw leaderOfflineDraw =
      some { Operator.newOperator leaderOffline (opReplica ||| opLeader ||| opRegion)
        [.transferLeader 2 3, .addPeer 4 14, .removePeer 2] with level := highPriority } := by
    decide +kernel
  have hfits : leaderOfflineDraw.Fits { stores := fiveStores } leaderOffline :=
    ⟨.rfl, by decide, by decide⟩
  obtain ⟨hbest, -, -⟩ := check_improves (by decide) hfits hfits hcheck
  exact ⟨hcheck, hbest 4 (by decide)⟩

/-- A region is checked again and again, and each operator is executed before the next check. -/
inductive Repairs (c : RaftCluster) : RegionInfo → List Operator → RegionInfo → Prop
  | nil {region : RegionInfo} : Repairs c region [] region
  | cons {region after : RegionInfo} {fix rest : Draw} {op : Operator} {ops : List Operator}
    (hfix : fix.Fits c region) (hrest : rest.Fits c region)
    (h : check c region fix rest = some op)
    (hops : Repairs c (region.executeAll op.steps) ops after) : Repairs c region (op :: ops) after

theorem Plan.nonUpCount_le (h : Plan c region steps) :
    nonUpCount c (region.executeAll steps) ≤ nonUpCount c region := by
  rw [nonUpCount_eq, nonUpCount_eq]
  cases h with
  | remove _ _ hmade =>
    rw [CreateRequest.stores_operator hmade]
    simpa [request, CreateOperator.newStore] using filter_sublist.countP_le
  | replace _ _ hnew hmade =>
    rw [CreateRequest.stores_operator hmade]
    refine filter_sublist.countP_le.trans ?_
    simp [request, CreateOperator.newStore, hnew.spec.2]
  | @add new peerId _ hnew =>
    have hstores : (region.executeAll [.addPeer new peerId]).stores = region.stores ++ [new] :=
      RegionInfo.stores_addPeer region new peerId
    simp [hstores, hnew.spec.2]

theorem Plan.potential_lt (h : Plan c region steps) (hregion : region.stores.Nodup) :
    distance c (region.executeAll steps) + nonUpCount c (region.executeAll steps) <
      distance c region + nonUpCount c region := by
  have hnonUp := h.nonUpCount_le
  rcases (h.improves hregion).2 with hdistance | ⟨hlength, hcount⟩
  · omega
  · unfold distance
    rw [hlength]
    omega

/-- Each operator of a repair brings the number of peers nearer to the number of replicas or a peer
away from a store that is not up, and none undoes what another has done. -/
theorem Repairs.bounded {after : RegionInfo} {ops : List Operator} (hregion : region.stores.Nodup)
    (h : Repairs c region ops after) : after.stores.Nodup ∧
      ops.length + distance c after + nonUpCount c after ≤
        distance c region + nonUpCount c region := by
  induction h with
  | nil => exact ⟨hregion, by simp⟩
  | cons hfix hrest hcheck _ ih =>
    have hplan := plan_of_check hfix hrest hcheck
    obtain ⟨hnodup, hle⟩ := ih (hplan.improves hregion).1
    have hlt := hplan.potential_lt hregion
    rw [length_cons]
    exact ⟨hnodup, by omega⟩

theorem Repairs.bounded_leaderOffline : ∃ op after,
    Repairs { stores := fiveStores } leaderOffline [op] after ∧
      distance { stores := fiveStores } after = 0 ∧
        nonUpCount { stores := fiveStores } after = 0 := by
  have hfits : leaderOfflineDraw.Fits { stores := fiveStores } leaderOffline :=
    ⟨.rfl, by decide, by decide⟩
  have hcheck : (check { stores := fiveStores } leaderOffline leaderOfflineDraw
      leaderOfflineDraw).isSome = true := by
    decide +kernel
  obtain ⟨op, hop⟩ := Option.isSome_iff_exists.mp hcheck
  have hrun := Repairs.cons hfits hfits hop .nil
  have hle := (Repairs.bounded (by decide) hrun).2
  have hone : distance { stores := fiveStores } leaderOffline +
      nonUpCount { stores := fiveStores } leaderOffline = 1 := by
    decide +kernel
  rw [hone, length_singleton] at hle
  exact ⟨op, _, hrun, by omega, by omega⟩

structure Stranded (c : RaftCluster) (region : RegionInfo) (old : Peer) : Prop where
  replicas : 1 ≤ c.maxReplicas
  length : region.peers.length ≤ c.maxReplicas
  stores : region.stores.Nodup
  hasStore : ∀ s ∈ region.stores, c.hasStore s = true
  leader : ∃ leader ∈ region.peers, region.leader = some leader
  mem : old ∈ region.peers
  nonUp : nonUp c old.storeId = true
  eq_of_nonUp : ∀ peer ∈ region.peers, ReplicaChecker.nonUp c peer.storeId = true → peer = old
  eligible : ∃ store ∈ c.stores.getStores, Eligible c region store

def MovesAway (c : RaftCluster) (region : RegionInfo) (fix rest : Draw) (old : Peer) : Prop :=
  ∃ op, check c region fix rest = some op ∧ old.storeId ∉ (region.executeAll op.steps).stores

def CanLeave (region : RegionInfo) (old : Peer) : Prop :=
  region.learners = [] ∧
    (region.leaderStoreId ≠ old.storeId ∨ ∃ peer ∈ region.peers, peer.id ≠ region.leaderId)

variable {old : Peer} {fix rest : Draw}

theorem checkOfflinePeers_eq {peers : List Peer}
    (hstores : ∀ peer ∈ peers, c.hasStore peer.storeId = true) (hmem : old ∈ peers)
    (hup : nonUp c old.storeId = true)
    (heq : ∀ peer ∈ peers, nonUp c peer.storeId = true → peer = old) :
    checkOfflinePeers c region d peers = fixPeer c region old .offline d := by
  induction peers with
  | nil => cases hmem
  | cons peer peers ih =>
    obtain ⟨store, hstore⟩ := Option.isSome_iff_exists.mp (hstores peer mem_cons_self)
    unfold checkOfflinePeers
    rw [hstore]
    dsimp only
    split_ifs with hpeer
    · have hne : peer ≠ old := by
        rintro rfl
        simp [nonUp, hstore, hpeer] at hup
      apply ih
      · exact fun p hp => hstores p (mem_cons_of_mem _ hp)
      · exact (mem_cons.mp hmem).resolve_left hne.symm
      · exact fun p hp => heq p (mem_cons_of_mem _ hp)
    · have hnonUp : nonUp c peer.storeId = true := by simp [nonUp, hstore, hpeer]
      rw [heq peer mem_cons_self hnonUp]

theorem Stranded.fixPeer_eq (h : Stranded c region old) (hd : d.Fits c region) {peerId : ℕ}
    (hid : d.peerId = some peerId) : ∃ new, fixPeer c region old .offline d =
      ((request c region d (.offlinePeer old.storeId new peerId)).operator region).toOption := by
  obtain ⟨store, hmem, heligible⟩ := h.eligible
  obtain ⟨hpass, heligible⟩ := (replacement_filters old store).mpr heligible
  have hne : selectBestReplacementStore c region old [] d ≠ 0 :=
    select_ne_zero hd.stores hmem hpass heligible
  refine ⟨selectBestReplacementStore c region old [] d, ?_⟩
  unfold fixPeer allocPeer
  rw [if_neg (not_lt.mpr h.length), hid]
  simp only [hne, if_false, Option.map_some]
  rfl

theorem Stranded.operator_eq_ok (h : Stranded c region old) (hd : d.Fits c region)
    (new peerId : ℕ) :
    (∃ op, (request c region d (.offlinePeer old.storeId new peerId)).operator region = .ok op) ↔
      region.leaderStoreId ≠ old.storeId ∨
        ∃ peer ∈ region.peers, peer.id ≠ region.leaderId := by
  obtain ⟨leader, -, hleader⟩ := h.leader
  have hfollowers : ∀ {s}, s ∈ d.followerIds ↔
      ∃ peer ∈ region.peers, peer.id ≠ region.leaderId ∧ peer.storeId = s := by
    intro s
    rw [hd.followerIds.mem_iff, RegionInfo.mem_keys_getFollowers]
    simp [hleader, ne_comm]
  have hexists : ∀ s ∈ d.followerIds, c.hasStore s = true := by
    intro s hs
    obtain ⟨peer, hpeer, -, rfl⟩ := hfollowers.mp hs
    exact h.hasStore _ (RegionInfo.mem_stores.mpr ⟨peer, hpeer, rfl⟩)
  constructor
  · rintro ⟨op, hop⟩
    obtain ⟨kind, transfer, htransfer, -⟩ := CreateRequest.operator_eq_ok hop
    obtain ⟨hnot, -⟩ | ⟨-, id, hid, -⟩ := Operator.transferLeaderStep_eq_ok htransfer
    · left
      have hne : leader.storeId ≠ old.storeId := hnot leader hleader
      simpa [RegionInfo.leaderStoreId, hleader] using hne
    · right
      have hid : id ∈ d.followerIds := hid
      obtain ⟨peer, hpeer, hne, -⟩ := hfollowers.mp hid
      exact ⟨peer, hpeer, hne⟩
  · intro hleave
    cases hop : (request c region d (.offlinePeer old.storeId new peerId)).operator region with
    | ok op => exact ⟨op, rfl⟩
    | error err =>
      -- The leader is on the store, so that there is a follower, which is on a store with an id.
      obtain ⟨hold, hzero⟩ :=
        Operator.transferLeaderStep_eq_error (CreateRequest.operator_eq_error hop)
      obtain ⟨peer, hpeer, hne⟩ := hleave.resolve_left (not_not.mpr hold)
      have hmem : peer.storeId ∈ d.followerIds := hfollowers.mpr ⟨peer, hpeer, hne, rfl⟩
      obtain hnil | ⟨others, hcons⟩ := Operator.findAvailableStore_eq_zero hexists hzero
      · have hnil : d.followerIds = [] := hnil
        rw [hnil] at hmem
        cases hmem
      · have hcons : d.followerIds = 0 :: others := hcons
        obtain ⟨store, hstore⟩ := Option.isSome_iff_exists.mp
          (hexists 0 (hcons ▸ mem_cons_self))
        exact absurd rfl (StoresInfo.ne_zero_of_getStore hstore)

theorem Stranded.stays (h : Stranded c region old) (hnone : checkOfflinePeer c region fix = none) :
    ¬ MovesAway c region fix rest old := by
  rintro ⟨op, hop, hgone⟩
  have hold : old.storeId ∈ region.stores := RegionInfo.mem_stores.mpr ⟨old, h.mem, rfl⟩
  obtain ⟨fixed, hfixed, -⟩ | ⟨-, ⟨-, peer, -, rfl⟩ | ⟨hmany, -⟩⟩ := check_eq_some hop
  · rw [hnone] at hfixed
    cases hfixed
  · have hstores : (region.executeAll [.addPeer peer.storeId peer.id]).stores =
        region.stores ++ [peer.storeId] := RegionInfo.stores_addPeer _ _ _
    exact hgone (hstores ▸ mem_append_left _ hold)
  · exact absurd hmany (not_lt.mpr h.length)

/-- The peer is taken away from the store that is not up exactly if there are no learners, and the
leader is on another store or there is a follower. -/
theorem check_movesAway_iff (h : Stranded c region old) (hfix : fix.Fits c region)
    (hpeerId : fix.peerId ≠ none) : MovesAway c region fix rest old ↔ CanLeave region old := by
  obtain ⟨peerId, hpeerId⟩ := Option.ne_none_iff_exists'.mp hpeerId
  obtain ⟨new, hnew⟩ := h.fixPeer_eq hfix hpeerId
  have hstores : ∀ peer ∈ region.peers, c.hasStore peer.storeId = true := fun peer hpeer =>
    h.hasStore _ (RegionInfo.mem_stores.mpr ⟨peer, hpeer, rfl⟩)
  unfold CanLeave
  rw [← h.operator_eq_ok hfix new peerId]
  by_cases hlearners : region.learners = []
  · have hoffline : checkOfflinePeer c region fix = ((request c region fix
        (.offlinePeer old.storeId new peerId)).operator region).toOption := by
      unfold checkOfflinePeer
      rw [hlearners, if_neg (by simp),
        checkOfflinePeers_eq hstores h.mem h.nonUp h.eq_of_nonUp, hnew]
    cases hop : (request c region fix (.offlinePeer old.storeId new peerId)).operator region with
    | error err =>
      rw [hop] at hoffline
      simp [h.stays hoffline]
    | ok op =>
      rw [hop] at hoffline
      refine iff_of_true ⟨{ op with level := highPriority }, ?_, ?_⟩ ⟨hlearners, op, rfl⟩
      · unfold check
        rw [hoffline]
        rfl
      · have hafter : (region.executeAll op.steps).stores =
            (region.stores ++ [new]).filter (· ≠ old.storeId) := CreateRequest.stores_operator hop
        change old.storeId ∉ (region.executeAll op.steps).stores
        simp [hafter]
  · have hnone : checkOfflinePeer c region fix = none := by
      unfold checkOfflinePeer
      rw [if_pos]
      simpa using hlearners
    simp [h.stays hnone, hlearners]

theorem eligible_leaderOffline : Eligible { stores := fiveStores } leaderOffline
    { id := 4, regionSize := 5 } :=
  ⟨by decide, ⟨by decide, by decide⟩, by decide⟩

theorem check_movesAway_leaderOffline :
    MovesAway { stores := fiveStores } leaderOffline leaderOfflineDraw leaderOfflineDraw
      ⟨12, 2⟩ := by
  have hfits : leaderOfflineDraw.Fits { stores := fiveStores } leaderOffline :=
    ⟨.rfl, by decide, by decide⟩
  have hstranded : Stranded { stores := fiveStores } leaderOffline ⟨12, 2⟩ := {
    replicas := by decide
    length := by decide
    stores := by decide
    hasStore := by decide
    leader := ⟨⟨12, 2⟩, by decide, rfl⟩
    mem := by decide
    nonUp := by decide
    eq_of_nonUp := by decide
    eligible := ⟨_, by decide, eligible_leaderOffline⟩ }
  exact (check_movesAway_iff hstranded hfits (by decide)).mpr
    ⟨rfl, .inr ⟨⟨11, 1⟩, by decide, by decide⟩⟩

def singleReplica : RaftCluster := { stores := fiveStores, maxReplicas := 1 }

def onlyOffline : RegionInfo := { id := 1, peers := [⟨12, 2⟩], leader := some ⟨12, 2⟩ }

def onlyOfflineDraw : Draw where
  stores := fiveStores.getStores
  storeIds := [2]
  followerIds := []
  peerId := some 14

theorem not_check_movesAway :
    Stranded singleReplica onlyOffline ⟨12, 2⟩ ∧ onlyOfflineDraw.Fits singleReplica onlyOffline ∧
      onlyOfflineDraw.peerId ≠ none ∧
      check singleReplica onlyOffline onlyOfflineDraw onlyOfflineDraw = none ∧
      ¬ MovesAway singleReplica onlyOffline onlyOfflineDraw onlyOfflineDraw ⟨12, 2⟩ := by
  have heligible : Eligible singleReplica onlyOffline { id := 4, regionSize := 5 } :=
    ⟨by decide, ⟨by decide, by decide⟩, by decide⟩
  have hnone : check singleReplica onlyOffline onlyOfflineDraw onlyOfflineDraw = none := by
    decide +kernel
  have hstranded : Stranded singleReplica onlyOffline ⟨12, 2⟩ := {
    replicas := by decide
    length := by decide
    stores := by decide
    hasStore := by decide
    leader := ⟨⟨12, 2⟩, by decide, rfl⟩
    mem := by decide
    nonUp := by decide
    eq_of_nonUp := by decide
    eligible := ⟨_, by decide, heligible⟩ }
  refine ⟨hstranded, ⟨.rfl, by decide, by decide⟩, by decide, hnone, ?_⟩
  rintro ⟨op, hop, -⟩
  rw [hnone] at hop
  cases hop

end ReplicaChecker

end TinyKV
