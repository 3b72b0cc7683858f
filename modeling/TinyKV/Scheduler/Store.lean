import Mathlib.Data.Int.ConditionallyCompleteOrder
import Mathlib.Data.List.MinMax
import Mathlib.Order.ConditionallyCompleteLattice.Basic
import TinyKV.Scheduler.Operator

/-!
# Stores, and which of them may be chosen

`StoreInfo` and `StoresInfo` of `scheduler/server/core/store.go`, the filters of
`scheduler/server/schedule/filter/filters.go` and the selector of
`scheduler/server/schedule/selector/selector.go`.
-/

namespace TinyKV

open List

inductive StoreState
  | up
  | offline
  | tombstone
deriving DecidableEq, Repr

structure StoreInfo where
  id : ℕ
  state : StoreState := .up
  busy : Bool := false
  blocked : Bool := false
  leaderCount : ℤ := 0
  regionSize : ℤ := 0
  lastHeartbeatTS : ℤ := 0
  available : Bool := true
deriving DecidableEq, Repr

namespace StoreInfo

def storeDisconnectDuration : ℤ := 20 * 1000000000

def isUp (s : StoreInfo) : Bool := s.state = .up

def isOffline (s : StoreInfo) : Bool := s.state = .offline

def isTombstone (s : StoreInfo) : Bool := s.state = .tombstone

def isBusy (s : StoreInfo) : Bool := s.busy

def isBlocked (s : StoreInfo) : Bool := s.blocked

def isAvailable (s : StoreInfo) : Bool := s.available

def downTime (now : ℤ) (s : StoreInfo) : ℤ := now - s.lastHeartbeatTS

def isDisconnected (now : ℤ) (s : StoreInfo) : Bool := storeDisconnectDuration < s.downTime now

theorem isUp_iff {s : StoreInfo} : s.isUp = true ↔ s.isOffline = false ∧ s.isTombstone = false := by
  unfold isUp isOffline isTombstone
  cases s.state <;> simp

end StoreInfo

structure StoresInfo where
  stores : AList fun _ : ℕ => StoreInfo := ∅
  id_eq : ∀ id store, stores.lookup id = some store → store.id = id := by simp
  lookup_zero : stores.lookup 0 = none := by simp

namespace StoresInfo

def newStoresInfo : StoresInfo := {}

def getStore (s : StoresInfo) (storeId : ℕ) : Option StoreInfo := s.stores.lookup storeId

def getStores (s : StoresInfo) : List StoreInfo := s.stores.entries.map Sigma.snd

def setStore (s : StoresInfo) (store : StoreInfo) (h : store.id ≠ 0) : StoresInfo where
  stores := s.stores.insert store.id store
  id_eq id found hfound := by
    by_cases hid : id = store.id
    · subst hid
      rw [AList.lookup_insert] at hfound
      exact congrArg StoreInfo.id (Option.some.inj hfound).symm
    · rw [AList.lookup_insert_ne hid] at hfound
      exact s.id_eq id found hfound
  lookup_zero := by
    rw [AList.lookup_insert_ne h.symm]
    exact s.lookup_zero

variable {s : StoresInfo} {store : StoreInfo} {id : ℕ}

theorem id_of_getStore (h : s.getStore id = some store) : store.id = id := s.id_eq id store h

theorem ne_zero_of_getStore (h : s.getStore id = some store) : id ≠ 0 := by
  rintro rfl
  have hzero : s.getStore 0 = none := s.lookup_zero
  rw [hzero] at h
  cases h

theorem mem_getStores : store ∈ s.getStores ↔ s.getStore store.id = some store := by
  unfold getStores
  rw [mem_map]
  constructor
  · rintro ⟨⟨id, store⟩, hmem, rfl⟩
    have hfound : s.getStore id = some store := AList.mem_lookup_iff.mpr hmem
    rwa [id_of_getStore hfound]
  · intro h
    exact ⟨⟨store.id, store⟩, AList.mem_lookup_iff.mp h, rfl⟩

theorem getStore_setStore (s : StoresInfo) (store : StoreInfo) (h : store.id ≠ 0) (id : ℕ) :
    (s.setStore store h).getStore id = if id = store.id then some store else s.getStore id := by
  unfold getStore setStore
  split_ifs with hid
  · rw [hid, AList.lookup_insert]
  · rw [AList.lookup_insert_ne hid]

end StoresInfo

/-- `RaftCluster`, as far as the schedulers see it, with the time at which they do. -/
structure RaftCluster where
  stores : StoresInfo := {}
  regions : RegionsInfo := {}
  maxReplicas : ℤ := 3
  maxStoreDownTime : ℤ := 30 * 60 * 1000000000
  now : ℤ := 0

namespace RaftCluster

def hasStore (c : RaftCluster) (storeId : ℕ) : Bool := (c.stores.getStore storeId).isSome

def getRegionStores (c : RaftCluster) (storeIds : List ℕ) : List StoreInfo :=
  storeIds.filterMap c.stores.getStore

/-- The store is neither busy nor down for too long. -/
structure Healthy (c : RaftCluster) (store : StoreInfo) : Prop where
  busy : store.isBusy = false
  downTime : store.downTime c.now ≤ c.maxStoreDownTime

end RaftCluster

inductive Filter
  | excluded (sources targets : List ℕ)
  | state
  | health
  | storeState (transferLeader moveRegion : Bool)

namespace Filter

variable {c : RaftCluster} {store : StoreInfo} {filters filters' : List Filter}

def healthFilter (c : RaftCluster) (store : StoreInfo) : Bool :=
  if store.isBusy then true else c.maxStoreDownTime < store.downTime c.now

def filterMoveRegion (store : StoreInfo) : Bool :=
  if store.isBusy then true else if !store.isAvailable then true else false

def source (c : RaftCluster) (store : StoreInfo) : Filter → Bool
  | excluded sources _ => store.id ∈ sources
  | state => store.isTombstone
  | health => healthFilter c store
  | storeState transferLeader moveRegion =>
    if store.isTombstone || c.maxStoreDownTime < store.downTime c.now then true
    else if transferLeader && (store.isDisconnected c.now || store.isBlocked) then true
    else if moveRegion && filterMoveRegion store then true
    else false

def target (c : RaftCluster) (store : StoreInfo) : Filter → Bool
  | excluded _ targets => store.id ∈ targets
  | state => !store.isUp
  | health => healthFilter c store
  | storeState transferLeader moveRegion =>
    if store.isTombstone || store.isOffline || c.maxStoreDownTime < store.downTime c.now then true
    else if transferLeader && (store.isDisconnected c.now || store.isBlocked || store.isBusy) then
      true
    else if moveRegion && filterMoveRegion store then true
    else false

def anySource (c : RaftCluster) (store : StoreInfo) (filters : List Filter) : Bool :=
  filters.any (source c store)

def anyTarget (c : RaftCluster) (store : StoreInfo) (filters : List Filter) : Bool :=
  filters.any (target c store)

def selectSourceStores (c : RaftCluster) (stores : List StoreInfo) (filters : List Filter) :
    List StoreInfo :=
  stores.filter fun s => filters.all fun f => !source c s f

def selectTargetStores (c : RaftCluster) (stores : List StoreInfo) (filters : List Filter) :
    List StoreInfo :=
  stores.filter fun s => filters.all fun f => !target c s f

theorem healthFilter_eq_false : healthFilter c store = false ↔ c.Healthy store := by
  unfold healthFilter
  constructor
  · intro h
    split_ifs at h with hbusy
    exact ⟨by simpa using hbusy, by simpa using h⟩
  · rintro ⟨hbusy, hdown⟩
    simp [hbusy, hdown]

theorem anyTarget_append : anyTarget c store (filters ++ filters') = false ↔
    anyTarget c store filters = false ∧ anyTarget c store filters' = false := by
  unfold anyTarget
  rw [any_append, Bool.or_eq_false_iff]

theorem isUp_of_target {transferLeader moveRegion : Bool}
    (h : target c store (.storeState transferLeader moveRegion) = false) : store.isUp = true := by
  rw [StoreInfo.isUp_iff]
  simp only [target] at h
  split_ifs at h with hstate
  simp only [Bool.or_eq_true, not_or, Bool.not_eq_true] at hstate
  exact ⟨hstate.1.2, hstate.1.1⟩

end Filter

def compareStoreScore (storeA storeB : StoreInfo) : ℤ :=
  if storeA.regionSize < storeB.regionSize then 1
  else if storeA.regionSize > storeB.regionSize then -1
  else 0

structure ReplicaSelector where
  filters : List Filter

namespace ReplicaSelector

def worst (stores : List StoreInfo) : Option StoreInfo :=
  stores.foldl (fun best store =>
    match best with
    | none => some store
    | some b => if compareStoreScore store b < 0 then some store else some b) none

def selectSource (s : ReplicaSelector) (c : RaftCluster) (stores : List StoreInfo) :
    Option StoreInfo :=
  match worst stores with
  | none => none
  | some best => if Filter.anySource c best s.filters then none else some best

def best (c : RaftCluster) (stores : List StoreInfo) (filters : List Filter) : Option StoreInfo :=
  stores.foldl (fun best store =>
    if Filter.anyTarget c store filters then best
    else
      match best with
      | none => some store
      | some b => if compareStoreScore store b > 0 then some store else some b) none

def selectTarget (s : ReplicaSelector) (c : RaftCluster) (stores : List StoreInfo)
    (filters : List Filter) : Option StoreInfo :=
  match best c stores filters with
  | none => none
  | some b => if Filter.anyTarget c b s.filters then none else some b

variable {s : ReplicaSelector} {c : RaftCluster} {stores : List StoreInfo} {filters : List Filter}
  {store : StoreInfo}

theorem compareStoreScore_pos {a b : StoreInfo} :
    compareStoreScore a b > 0 ↔ a.regionSize < b.regionSize := by
  unfold compareStoreScore
  split_ifs with hlt hgt
  · simp [hlt]
  · simp [hlt]
  · simp [hlt]

theorem best_eq : best c stores filters =
    (stores.filter fun store => !Filter.anyTarget c store filters).argmin StoreInfo.regionSize := by
  unfold best List.argmin
  rw [foldl_filter]
  congr 1
  funext best store
  cases Filter.anyTarget c store filters with
  | true => rfl
  | false =>
    cases best with
    | none => rfl
    | some b =>
      simp only [compareStoreScore_pos, List.argAux]
      rfl

theorem selectTarget_spec (h : s.selectTarget c stores filters = some store) :
    store ∈ stores ∧ Filter.anyTarget c store filters = false ∧
      ∀ other ∈ stores, Filter.anyTarget c other filters = false →
        store.regionSize ≤ other.regionSize := by
  unfold selectTarget at h
  rw [best_eq] at h
  cases hbest : (stores.filter fun store => !Filter.anyTarget c store filters).argmin
      StoreInfo.regionSize with
  | none => simp [hbest] at h
  | some found =>
    simp only [hbest] at h
    split_ifs at h
    obtain rfl := Option.some.inj h
    obtain ⟨hmem, hpass⟩ := mem_filter.mp (argmin_mem hbest)
    refine ⟨hmem, by simpa using hpass, ?_⟩
    intro other hother hpass'
    exact le_of_mem_argmin (mem_filter.mpr ⟨hother, by simpa using hpass'⟩) hbest

theorem exists_selectTarget (hfilters : s.filters ⊆ filters) (hmem : store ∈ stores)
    (hpass : Filter.anyTarget c store filters = false) :
    ∃ found, s.selectTarget c stores filters = some found := by
  have hne : (stores.filter fun store => !Filter.anyTarget c store filters) ≠ [] :=
    ne_nil_of_mem (mem_filter.mpr ⟨hmem, by simpa using hpass⟩)
  cases hbest : (stores.filter fun store => !Filter.anyTarget c store filters).argmin
      StoreInfo.regionSize with
  | none => exact absurd (argmin_eq_none.mp hbest) hne
  | some found =>
    have hfound := (mem_filter.mp (argmin_mem hbest)).2
    have hself : Filter.anyTarget c found s.filters = false := by
      unfold Filter.anyTarget at hfound ⊢
      rw [any_eq_false]
      rw [Bool.not_eq_true', any_eq_false] at hfound
      exact fun f hf => hfound f (hfilters hf)
    refine ⟨found, ?_⟩
    unfold selectTarget
    rw [best_eq, hbest]
    simp [hself]

end ReplicaSelector

end TinyKV
