import TinyKV.Scheduler.RandomRegion
import TinyKV.Scheduler.OperatorSafety
import TinyKV.Scheduler.Store

/-!
# The scheduler that balances leaders

`balanceLeaderScheduler` of `scheduler/server/schedulers/balance_leader.go`.
-/

namespace TinyKV

open List

def RegionSubTree.randRegionFrom (rst : RegionSubTree) (opts : List (RegionInfo → Bool))
    (intn : ℕ → ℕ → ℕ) : ℕ → ℕ → Option RegionInfo
  | 0, _ => none
  | left + 1, i =>
    match RandomRegion.anyRegion rst.tree (intn i) with
    | none => none
    | some region =>
      if opts.all fun opt => opt region then some region
      else randRegionFrom rst opts intn left (i + 1)

def randomRegionMaxRetry : ℕ := 10

def RegionSubTree.randRegion (rst : RegionSubTree) (opts : List (RegionInfo → Bool))
    (intn : ℕ → ℕ → ℕ) : Option RegionInfo :=
  rst.randRegionFrom opts intn randomRegionMaxRetry 0

def RegionInfo.healthRegion (region : RegionInfo) : Bool :=
  region.pendingPeers.length = 0 && region.learners.length = 0

def RegionsInfo.getStoreLeaderCount (r : RegionsInfo) (storeId : ℕ) : ℕ :=
  (r.leaders storeId).tree.length

namespace RaftCluster

def randLeaderRegion (c : RaftCluster) (storeId : ℕ) (opts : List (RegionInfo → Bool))
    (intn : ℕ → ℕ → ℕ) : Option RegionInfo :=
  (c.regions.leaders storeId).randRegion opts intn

def randFollowerRegion (c : RaftCluster) (storeId : ℕ) (opts : List (RegionInfo → Bool))
    (intn : ℕ → ℕ → ℕ) : Option RegionInfo :=
  (c.regions.followers storeId).randRegion opts intn

def getFollowerStores (c : RaftCluster) (followerIds : List ℕ) : List StoreInfo :=
  followerIds.filterMap c.stores.getStore

end RaftCluster

theorem RegionSubTree.randRegion_spec {rst : RegionSubTree} {opts : List (RegionInfo → Bool)}
    {intn : ℕ → ℕ → ℕ} {region : RegionInfo} (h : rst.randRegion opts intn = some region) :
    region ∈ rst.tree ∧ ∀ opt ∈ opts, opt region = true := by
  -- The induction is on the number of tries that are left.
  have hloop : ∀ left i, rst.randRegionFrom opts intn left i = some region →
      region ∈ rst.tree ∧ ∀ opt ∈ opts, opt region = true := by
    intro left
    induction left with
    | zero =>
      intro i hi
      cases hi
    | succ left ih =>
      intro i hi
      unfold randRegionFrom at hi
      cases hany : RandomRegion.anyRegion rst.tree (intn i) with
      | none => simp [hany] at hi
      | some found =>
        simp only [hany] at hi
        split_ifs at hi with hopts
        · obtain rfl := Option.some.inj hi
          unfold RandomRegion.anyRegion at hany
          split_ifs at hany
          exact ⟨mem_of_getElem? hany, all_eq_true.mp hopts⟩
        · exact ih (i + 1) hi
  exact hloop randomRegionMaxRetry 0 h

namespace BalanceLeader

def leaderTolerantSizeRatio : ℤ := 5

def balanceLeaderRetryLimit : ℕ := 10

def filters : List Filter := [.storeState true false]

def Sorts (less : StoreInfo → StoreInfo → Bool) (sort : List StoreInfo → List StoreInfo) : Prop :=
  ∀ stores, (sort stores).Perm stores ∧ (sort stores).Pairwise fun a b => less b a = false

structure Draw where
  intn : ℕ → ℕ → ℕ
  followerIds : RegionInfo → List ℕ
  sort : List StoreInfo → List StoreInfo

structure Call where
  stores : List StoreInfo
  sortSources : List StoreInfo → List StoreInfo
  sortTargets : List StoreInfo → List StoreInfo
  out : ℕ → ℕ → Draw
  into : ℕ → ℕ → Draw

def moreLeaders (a b : StoreInfo) : Bool := a.leaderCount > b.leaderCount

def fewerLeaders (a b : StoreInfo) : Bool := a.leaderCount < b.leaderCount

/-- What is given is possible. -/
structure Draw.Fits (d : Draw) : Prop where
  intn : ∀ i, RandomRegion.Intn (d.intn i)
  followerIds : ∀ region, (d.followerIds region).Perm region.getFollowers.keys
  sort : Sorts fewerLeaders d.sort

structure Call.Fits (call : Call) (c : RaftCluster) : Prop where
  stores : call.stores.Perm c.stores.getStores
  sortSources : Sorts moreLeaders call.sortSources
  sortTargets : Sorts fewerLeaders call.sortTargets
  out : ∀ i j, (call.out i j).Fits
  into : ∀ i j, (call.into i j).Fits

def createOperator (region : RegionInfo) (source target : StoreInfo) : Option Operator :=
  if source.leaderCount - target.leaderCount < 2 * leaderTolerantSizeRatio then none
  else some (Operator.createTransferLeaderOperator region region.leaderStoreId target.id opBalance)

def transferLeaderOut (c : RaftCluster) (source : StoreInfo) (d : Draw) : Option Operator :=
  match c.randLeaderRegion source.id [RegionInfo.healthRegion] d.intn with
  | none => none
  | some region =>
    let targets := c.getFollowerStores (d.followerIds region)
    let targets := d.sort (Filter.selectTargetStores c targets filters)
    targets.findSome? fun target => createOperator region source target

def transferLeaderIn (c : RaftCluster) (target : StoreInfo) (d : Draw) : Option Operator :=
  match c.randFollowerRegion target.id [RegionInfo.healthRegion] d.intn with
  | none => none
  | some region =>
    match c.stores.getStore region.leaderStoreId with
    | none => none
    | some source => createOperator region source target

def retry (f : ℕ → Option Operator) : Option Operator :=
  (List.range balanceLeaderRetryLimit).findSome? f

def schedule (c : RaftCluster) (call : Call) : Option Operator :=
  let sources := call.sortSources (Filter.selectSourceStores c call.stores filters)
  let targets := call.sortTargets (Filter.selectTargetStores c call.stores filters)
  (List.range (max sources.length targets.length)).findSome? fun i =>
    (sources[i]?.bind fun source => retry fun j => transferLeaderOut c source (call.out i j)).or
      (targets[i]?.bind fun target => retry fun j => transferLeaderIn c target (call.into i j))

/-- The regions are indexed as they should be, and the leader counts of the stores are those of the
index. -/
structure Consistent (c : RaftCluster) : Prop where
  regions : c.regions.Inv
  leaderCount : ∀ store ∈ c.stores.getStores,
    store.leaderCount = c.regions.getStoreLeaderCount store.id

structure Balances (c : RaftCluster) (op : Operator) (region : RegionInfo)
    (source target : StoreInfo) : Prop where
  getRegion : c.regions.getRegion op.regionId = some region
  pending : region.pendingPeers = []
  getSource : c.stores.getStore source.id = some source
  leader : ∃ leader, region.leader = some leader ∧ leader.storeId = source.id
  getTarget : c.stores.getStore target.id = some target
  follower : ∃ peer ∈ region.peers, region.leader ≠ some peer ∧ peer.storeId = target.id
  up : target.isUp = true
  passes : Filter.anyTarget c target filters = false
  leaderCount : target.leaderCount + 10 ≤ source.leaderCount
  steps : op.steps = [.transferLeader source.id target.id]

variable {c : RaftCluster} {op : Operator} {region : RegionInfo} {source target : StoreInfo}
  {d : Draw} {call : Call}

theorem mem_selectTargetStores {stores : List StoreInfo} :
    target ∈ Filter.selectTargetStores c stores filters ↔
      target ∈ stores ∧ Filter.anyTarget c target filters = false := by
  unfold Filter.selectTargetStores Filter.anyTarget
  rw [mem_filter]
  refine and_congr_right fun _ => ?_
  simp

theorem balances_of_createOperator (hc : Consistent c) (hregion : region ∈ c.regions.tree)
    (hhealth : region.healthRegion = true) (hsource : c.stores.getStore source.id = some source)
    (hleader : ∃ leader, region.leader = some leader ∧ leader.storeId = source.id)
    (htarget : c.stores.getStore target.id = some target)
    (hfollower : ∃ peer ∈ region.peers, region.leader ≠ some peer ∧ peer.storeId = target.id)
    (hpasses : Filter.anyTarget c target filters = false)
    (h : createOperator region source target = some op) : Balances c op region source target := by
  unfold createOperator leaderTolerantSizeRatio at h
  split_ifs at h with hcount
  obtain rfl := Option.some.inj h
  have hstore : region.leaderStoreId = source.id := by
    obtain ⟨leader, hsome, hid⟩ := hleader
    simpa [RegionInfo.leaderStoreId, hsome] using hid
  exact {
    getRegion := (hc.regions.agree.regions region.id region).mpr ⟨hregion, rfl⟩
    pending := by
      unfold RegionInfo.healthRegion at hhealth
      simp only [Bool.and_eq_true, decide_eq_true_eq] at hhealth
      exact length_eq_zero_iff.mp hhealth.1
    getSource := hsource
    leader := hleader
    getTarget := htarget
    follower := hfollower
    up := by
      have hstate : Filter.target c target (.storeState true false) = false := by
        simpa [Filter.anyTarget, filters] using hpasses
      exact Filter.isUp_of_target hstate
    passes := hpasses
    leaderCount := by omega
    steps := by
      rw [← hstore]
      rfl }

theorem balances_of_transferLeaderOut (hc : Consistent c) (hd : d.Fits)
    (hsource : source ∈ c.stores.getStores) (h : transferLeaderOut c source d = some op) :
    ∃ region target, Balances c op region source target := by
  unfold transferLeaderOut at h
  cases hrand : c.randLeaderRegion source.id [RegionInfo.healthRegion] d.intn with
  | none => simp [hrand] at h
  | some region =>
    simp only [hrand] at h
    obtain ⟨hmem, hopts⟩ := RegionSubTree.randRegion_spec hrand
    obtain ⟨hregion, hleader⟩ := (hc.regions.agree.leaders source.id region).mp hmem
    obtain ⟨target, htarget, hop⟩ := exists_of_findSome?_eq_some h
    obtain ⟨htarget, hpasses⟩ :=
      mem_selectTargetStores.mp ((hd.sort _).1.mem_iff.mp htarget)
    -- The target was found under the id of a store with a follower.
    obtain ⟨s, hs, hfound⟩ := mem_filterMap.mp htarget
    obtain rfl : target.id = s := StoresInfo.id_of_getStore hfound
    obtain ⟨peer, hpeer, hid, hstore⟩ :=
      RegionInfo.mem_keys_getFollowers.mp ((hd.followerIds region).mem_iff.mp hs)
    have hfollower : region.leader ≠ some peer := by
      intro heq
      simp [heq, RegionInfo.leaderId] at hid
    exact ⟨region, target, balances_of_createOperator hc hregion (hopts _ mem_cons_self)
      (StoresInfo.mem_getStores.mp hsource) hleader hfound ⟨peer, hpeer, hfollower, hstore⟩
      hpasses hop⟩

theorem balances_of_transferLeaderIn (hc : Consistent c) (htarget : target ∈ c.stores.getStores)
    (hpasses : Filter.anyTarget c target filters = false)
    (h : transferLeaderIn c target d = some op) :
    ∃ region source, Balances c op region source target := by
  unfold transferLeaderIn at h
  cases hrand : c.randFollowerRegion target.id [RegionInfo.healthRegion] d.intn with
  | none => simp [hrand] at h
  | some region =>
    simp only [hrand] at h
    obtain ⟨hmem, hopts⟩ := RegionSubTree.randRegion_spec hrand
    obtain ⟨hregion, hfollower⟩ := (hc.regions.agree.followers target.id region).mp hmem
    cases hsource : c.stores.getStore region.leaderStoreId with
    | none => simp [hsource] at h
    | some source =>
      simp only [hsource] at h
      have hid : source.id = region.leaderStoreId := StoresInfo.id_of_getStore hsource
      -- A region without a leader has zero for its store, which no store has for its id.
      have hleader : ∃ leader, region.leader = some leader ∧ leader.storeId = source.id := by
        cases hsome : region.leader with
        | none =>
          have hzero : region.leaderStoreId = 0 := by simp [RegionInfo.leaderStoreId, hsome]
          exact absurd hzero (StoresInfo.ne_zero_of_getStore hsource)
        | some leader => exact ⟨leader, rfl, by simp [hid, RegionInfo.leaderStoreId, hsome]⟩
      rw [← hid] at hsource
      exact ⟨region, source, balances_of_createOperator hc hregion (hopts _ mem_cons_self)
        hsource hleader (StoresInfo.mem_getStores.mp htarget) hfollower hpasses h⟩

theorem retry_eq_some {f : ℕ → Option Operator} (h : retry f = some op) : ∃ j, f j = some op := by
  obtain ⟨j, -, hj⟩ := exists_of_findSome?_eq_some h
  exact ⟨j, hj⟩

theorem balances_of_schedule (hc : Consistent c) (hcall : call.Fits c)
    (h : schedule c call = some op) :
    ∃ region source target, Balances c op region source target := by
  unfold schedule at h
  dsimp only at h
  obtain ⟨i, -, hi⟩ := exists_of_findSome?_eq_some h
  obtain hout | ⟨-, hin⟩ := Option.or_eq_some_iff.mp hi
  · obtain ⟨source, hsource, hretry⟩ := Option.bind_eq_some_iff.mp hout
    obtain ⟨j, hj⟩ := retry_eq_some hretry
    have hmem := (hcall.sortSources _).1.mem_iff.mp (mem_of_getElem? hsource)
    have hstore := hcall.stores.mem_iff.mp (mem_filter.mp hmem).1
    obtain ⟨region, target, hbalances⟩ :=
      balances_of_transferLeaderOut hc (hcall.out i j) hstore hj
    exact ⟨region, source, target, hbalances⟩
  · obtain ⟨target, htarget, hretry⟩ := Option.bind_eq_some_iff.mp hin
    obtain ⟨j, hj⟩ := retry_eq_some hretry
    have hmem := (hcall.sortTargets _).1.mem_iff.mp (mem_of_getElem? htarget)
    obtain ⟨hmem, hpasses⟩ := mem_selectTargetStores.mp hmem
    obtain ⟨region, source, hbalances⟩ :=
      balances_of_transferLeaderIn hc (hcall.stores.mem_iff.mp hmem) hpasses hj
    exact ⟨region, source, target, hbalances⟩

end BalanceLeader

end TinyKV
