import TinyKV.Scheduler.OperatorSafety

/-!
# What the steps of an operator do to a region

Of the functions that take a peer away from a store, `CreateRemovePeerOperator` transfers the leader
and removes the peer, `CreateMovePeerOperator` adds the new peer before that, and
`CreateOfflinePeerOperator` adds it in between.
-/

namespace TinyKV

open List

namespace RegionInfo

def stores (region : RegionInfo) : List ℕ := region.peers.map Peer.storeId

def execute (region : RegionInfo) : OpStep → RegionInfo
  | .transferLeader _ toStore => { region with leader := region.getStorePeer toStore }
  | .addPeer toStore peerId =>
    { region with peers := region.peers ++ [⟨peerId, toStore⟩], confVer := region.confVer + 1 }
  | .removePeer fromStore =>
    { region with
      peers := region.peers.filter (·.storeId ≠ fromStore), confVer := region.confVer + 1 }

def executeAll (region : RegionInfo) (steps : List OpStep) : RegionInfo :=
  steps.foldl execute region

def Allows (region : RegionInfo) : OpStep → Prop
  | .transferLeader _ toStore => toStore ∈ region.stores
  | .addPeer _ _ => True
  | .removePeer fromStore => ∀ leader ∈ region.leader, leader.storeId ≠ fromStore

variable {region : RegionInfo} {old s : ℕ} {steps : List OpStep}

theorem mem_stores : s ∈ region.stores ↔ ∃ p ∈ region.peers, p.storeId = s := mem_map

theorem getStorePeer_eq_none : region.getStorePeer s = none ↔ s ∉ region.stores := by
  simp [getStorePeer, stores, find?_eq_none]

theorem getStorePeer_eq_some {p : Peer} (h : region.stores.Nodup) :
    region.getStorePeer s = some p ↔ p ∈ region.peers ∧ p.storeId = s := by
  constructor
  · intro hp
    exact ⟨mem_of_find?_eq_some hp, by simpa using find?_some hp⟩
  · rintro ⟨hp, rfl⟩
    cases hfind : region.getStorePeer p.storeId with
    | none => exact absurd (mem_stores.mpr ⟨p, hp, rfl⟩) (getStorePeer_eq_none.mp hfind)
    | some q =>
      have hq : q.storeId = p.storeId := by simpa using find?_some hfind
      rw [inj_on_of_nodup_map h (mem_of_find?_eq_some hfind) hp hq]

theorem executeAll_cons (region : RegionInfo) (st : OpStep) (steps : List OpStep) :
    region.executeAll (st :: steps) = (region.execute st).executeAll steps := rfl

theorem executeAll_append (region : RegionInfo) (steps steps' : List OpStep) :
    region.executeAll (steps ++ steps') = (region.executeAll steps).executeAll steps' :=
  foldl_append

@[simp]
theorem stores_addPeer (region : RegionInfo) (toStore peerId : ℕ) :
    (region.execute (.addPeer toStore peerId)).stores = region.stores ++ [toStore] := by
  simp [execute, stores]

@[simp]
theorem stores_transferLeader (region : RegionInfo) (fromStore toStore : ℕ) :
    (region.execute (.transferLeader fromStore toStore)).stores = region.stores := rfl

@[simp]
theorem stores_removePeer (region : RegionInfo) (fromStore : ℕ) :
    (region.execute (.removePeer fromStore)).stores = region.stores.filter (· ≠ fromStore) := by
  unfold stores execute
  rw [filter_map]
  rfl

theorem filter_stores_ne (h : region.stores.Nodup) (s : ℕ) :
    region.stores.filter (· ≠ s) = region.stores.erase s := by
  rw [h.erase_eq_filter]
  exact filter_congr fun s' _ => by by_cases hs : s' = s <;> simp [hs]

theorem leader_transferLeader {fromStore toStore : ℕ} {leader : Peer}
    (h : leader ∈ (region.execute (.transferLeader fromStore toStore)).leader) :
    leader.storeId = toStore := by
  have hfind : region.peers.find? (fun peer => peer.storeId = toStore) = some leader := h
  simpa using find?_some hfind

def addedStores (steps : List OpStep) : List ℕ :=
  steps.filterMap fun
    | .addPeer toStore _ => some toStore
    | _ => none

theorem stores_executeAll (h : ∀ s, OpStep.removePeer s ∉ steps) :
    (region.executeAll steps).stores = region.stores ++ addedStores steps := by
  induction steps generalizing region with
  | nil => simp [executeAll, addedStores]
  | cons st steps ih =>
    have hsteps : ∀ s, OpStep.removePeer s ∉ steps := fun s hs => h s (mem_cons_of_mem st hs)
    rw [executeAll_cons, ih hsteps]
    cases st with
    | transferLeader fromStore toStore => simp [addedStores]
    | addPeer toStore peerId => simp [addedStores]
    | removePeer fromStore => exact absurd mem_cons_self (h fromStore)

theorem le_length_executeAll (h : ∀ s, OpStep.removePeer s ∉ steps) :
    region.peers.length ≤ (region.executeAll steps).peers.length := by
  have hlength : ∀ r : RegionInfo, r.stores.length = r.peers.length := fun r => length_map _
  rw [← hlength, ← hlength, stores_executeAll h, length_append]
  exact Nat.le_add_right _ _

/-- Steps that prepare the removal of the peer on a store. -/
inductive Prepares (old : ℕ) : RegionInfo → List OpStep → Prop
  | done {region : RegionInfo} (h : ∀ leader ∈ region.leader, leader.storeId ≠ old) :
    Prepares old region []
  | transferLeader {region : RegionInfo} {steps : List OpStep} {fromStore toStore : ℕ}
    (hto : toStore ∈ region.stores)
    (h : Prepares old (region.execute (.transferLeader fromStore toStore)) steps) :
    Prepares old region (.transferLeader fromStore toStore :: steps)
  | addPeer {region : RegionInfo} {steps : List OpStep} {toStore peerId : ℕ}
    (h : Prepares old (region.execute (.addPeer toStore peerId)) steps) :
    Prepares old region (.addPeer toStore peerId :: steps)

namespace Prepares

theorem allows (h : Prepares old region steps) {done todo : List OpStep} {st : OpStep}
    (hsplit : steps ++ [.removePeer old] = done ++ st :: todo) :
    (region.executeAll done).Allows st := by
  -- Either the step in question is the first one, or it is one of the steps after it.
  induction h generalizing done with
  | done hleader =>
    cases done with
    | nil =>
      obtain ⟨rfl, -⟩ := List.cons.inj hsplit
      exact hleader
    | cons _ done => simp at hsplit
  | transferLeader hto _ ih =>
    cases done with
    | nil =>
      obtain ⟨rfl, -⟩ := List.cons.inj hsplit
      exact hto
    | cons first done =>
      obtain ⟨rfl, hrest⟩ := List.cons.inj hsplit
      exact ih hrest
  | addPeer _ ih =>
    cases done with
    | nil =>
      obtain ⟨rfl, -⟩ := List.cons.inj hsplit
      trivial
    | cons first done =>
      obtain ⟨rfl, hrest⟩ := List.cons.inj hsplit
      exact ih hrest

theorem removePeer_notMem (h : Prepares old region steps) : ∀ s, OpStep.removePeer s ∉ steps := by
  intro s
  induction h with
  | done => simp
  | transferLeader _ _ ih => simpa using ih
  | addPeer _ ih => simpa using ih

end Prepares

end RegionInfo

namespace CreateOperator

def newStore : CreateOperator → Option ℕ
  | removePeer _ => none
  | movePeer _ newStore _ | offlinePeer _ newStore _ => some newStore

def preparation (transfer : List OpStep) : CreateOperator → List OpStep
  | removePeer _ => transfer
  | movePeer _ newStore peerId => Operator.createAddPeerSteps newStore peerId ++ transfer
  | offlinePeer _ newStore peerId => transfer ++ Operator.createAddPeerSteps newStore peerId

def opKind (transferKind kind : ℕ) : CreateOperator → ℕ
  | removePeer _ => transferKind ||| opRegion ||| kind
  | movePeer _ _ _ => transferKind ||| opRegion ||| kind ||| opRegion
  | offlinePeer _ _ _ => kind ||| transferKind ||| opRegion

def extraTargets : CreateOperator → List ℕ
  | movePeer _ newStore _ => [newStore]
  | removePeer _ | offlinePeer _ _ _ => []

def candidates (region : RegionInfo) (create : CreateOperator) : List ℕ :=
  region.stores.filter (· ≠ region.leaderStoreId) ++ create.extraTargets

end CreateOperator

namespace CreateRequest

variable {req : CreateRequest} {region : RegionInfo} {op : Operator} {err : Operator.OperatorErr}

theorem operator_eq (req : CreateRequest) (region : RegionInfo) : req.operator region =
    (Operator.transferLeaderStep req.hasStore region req.create.store req.targets).map
      fun made => Operator.newOperator region (req.create.opKind made.1 req.kind)
        (req.create.preparation made.2 ++ [.removePeer req.create.store]) := by
  unfold operator targets
  cases req.create with
  | removePeer storeId =>
    simp only [Operator.createRemovePeerOperator, Operator.removePeerSteps, CreateOperator.store]
    cases Operator.transferLeaderStep req.hasStore region storeId req.followerIds <;> rfl
  | movePeer oldStore newStore peerId =>
    simp only [Operator.createMovePeerOperator, Operator.removePeerSteps, CreateOperator.store]
    cases Operator.transferLeaderStep req.hasStore region oldStore
      (req.followerIds ++ [newStore]) <;> rfl
  | offlinePeer oldStore newStore peerId =>
    simp only [Operator.createOfflinePeerOperator, CreateOperator.store]
    cases Operator.transferLeaderStep req.hasStore region oldStore req.followerIds <;> rfl

theorem targets_eq (req : CreateRequest) :
    req.targets = req.followerIds ++ req.create.extraTargets := by
  unfold targets
  cases req.create <;> simp [CreateOperator.extraTargets]

theorem operator_eq_ok (h : req.operator region = .ok op) : ∃ kind transfer,
    Operator.transferLeaderStep req.hasStore region req.create.store req.targets =
      .ok (kind, transfer) ∧
    op = Operator.newOperator region (req.create.opKind kind req.kind)
      (req.create.preparation transfer ++ [.removePeer req.create.store]) := by
  rw [operator_eq] at h
  cases hmade : Operator.transferLeaderStep req.hasStore region req.create.store req.targets with
  | error err =>
    rw [hmade] at h
    cases h
  | ok made =>
    rw [hmade] at h
    exact ⟨made.1, made.2, rfl, (Except.ok.inj h).symm⟩

theorem operator_eq_error (h : req.operator region = .error err) :
    Operator.transferLeaderStep req.hasStore region req.create.store req.targets = .error err := by
  rw [operator_eq] at h
  cases hmade : Operator.transferLeaderStep req.hasStore region req.create.store req.targets with
  | error err' =>
    -- There is only one error.
    cases err
    cases err'
    rfl
  | ok made => simp [hmade, Except.map] at h

end CreateRequest

namespace Operator

variable {hasStore : ℕ → Bool} {region : RegionInfo} {old kind : ℕ} {ids : List ℕ}
  {transfer : List OpStep} {err : OperatorErr}

theorem transferLeaderStep_eq_ok
    (h : transferLeaderStep hasStore region old ids = .ok (kind, transfer)) :
    (∀ leader ∈ region.leader, leader.storeId ≠ old) ∧ transfer = [] ∨
      region.leaderStoreId = old ∧ ∃ id ∈ ids, transfer = [.transferLeader old id] := by
  unfold transferLeaderStep transferLeaderToSuitableSteps at h
  dsimp only at h
  split_ifs at h with hleader hid
  · obtain ⟨-, rfl⟩ := Prod.mk.inj (Except.ok.inj h)
    unfold findAvailableStore at hid ⊢
    cases hfind : ids.find? hasStore with
    | none => simp [hfind] at hid
    | some id => exact .inr ⟨hleader.2, id, mem_of_find?_eq_some hfind, rfl⟩
  · obtain ⟨-, rfl⟩ := Prod.mk.inj (Except.ok.inj h)
    refine .inl ⟨?_, rfl⟩
    intro leader hmem heq
    have hsome : region.leader = some leader := hmem
    exact hleader ⟨by simp [hsome], by simp [RegionInfo.leaderStoreId, hsome, heq]⟩

theorem transferLeaderStep_eq_error (h : transferLeaderStep hasStore region old ids = .error err) :
    region.leaderStoreId = old ∧ findAvailableStore hasStore ids = 0 := by
  unfold transferLeaderStep transferLeaderToSuitableSteps at h
  dsimp only at h
  split_ifs at h with hleader hid
  exact ⟨hleader.2, not_ne_iff.mp hid⟩

theorem findAvailableStore_eq_zero (hstores : ∀ id ∈ ids, hasStore id)
    (h : findAvailableStore hasStore ids = 0) : ids = [] ∨ ∃ rest, ids = 0 :: rest := by
  cases ids with
  | nil => exact .inl rfl
  | cons id ids =>
    have hid : hasStore id = true := hstores id mem_cons_self
    obtain rfl : id = 0 := by simpa [findAvailableStore, hid] using h
    exact .inr ⟨ids, rfl⟩

end Operator

structure RegionInfo.Placed (region : RegionInfo) : Prop where
  ids : (region.peers.map Peer.id).Nodup
  stores : region.stores.Nodup
  store_ne_zero : ∀ s ∈ region.stores, s ≠ 0
  leader : ∃ leader ∈ region.peers, region.leader = some leader

namespace CreateRequest

variable {req : CreateRequest} {region : RegionInfo} {op : Operator} {err : Operator.OperatorErr}

structure Applies (req : CreateRequest) (region : RegionInfo) : Prop where
  followers : req.followerIds.Perm region.getFollowers.keys
  hasStore : ∀ s ∈ region.stores, req.hasStore s
  hasStore_new : ∀ s ∈ req.create.newStore, req.hasStore s
  old : req.create.store ∈ region.stores
  new : ∀ s ∈ req.create.newStore, s ∉ region.stores

/-- The execution of steps is safe, and has the result that was asked for. -/
structure ExecutesSafely (create : CreateOperator) (region : RegionInfo) (steps : List OpStep) :
    Prop where
  allows : ∀ done st todo, steps = done ++ st :: todo → (region.executeAll done).Allows st
  last : steps.getLast? = some (.removePeer create.store)
  length : create.newStore ≠ none → ∀ done todo, steps = done ++ todo → todo ≠ [] →
    region.peers.length ≤ (region.executeAll done).peers.length
  stores : (region.executeAll steps).stores.Perm
    (create.newStore.toList ++ region.stores.erase create.store)

theorem Applies.mem_followerIds (h : req.Applies region) (hregion : region.Placed) {s : ℕ} :
    s ∈ req.followerIds ↔ s ∈ region.stores ∧ s ≠ region.leaderStoreId := by
  obtain ⟨leader, hmem, hleader⟩ := hregion.leader
  rw [h.followers.mem_iff, RegionInfo.mem_keys_getFollowers, RegionInfo.mem_stores]
  simp only [RegionInfo.leaderId, RegionInfo.leaderStoreId, hleader, reduceCtorEq, Option.map_some,
    Option.getD_some, false_or]
  constructor
  · rintro ⟨p, hp, hid, rfl⟩
    refine ⟨⟨p, hp, rfl⟩, fun heq => hid ?_⟩
    rw [inj_on_of_nodup_map hregion.stores hp hmem heq]
  · rintro ⟨⟨p, hp, rfl⟩, hne⟩
    refine ⟨p, hp, fun heq => hne ?_, rfl⟩
    rw [inj_on_of_nodup_map hregion.ids hmem hp heq]

theorem Applies.newStore_ne (h : req.Applies region) {s : ℕ} (hs : s ∈ req.create.newStore) :
    s ≠ req.create.store := by
  rintro rfl
  exact h.new _ hs h.old

theorem Applies.prepares (h : req.Applies region) (hregion : region.Placed) {kind : ℕ}
    {transfer : List OpStep}
    (htransfer : Operator.transferLeaderStep req.hasStore region req.create.store req.targets =
      .ok (kind, transfer)) :
    RegionInfo.Prepares req.create.store region (req.create.preparation transfer) := by
  have hnew : ∀ s ∈ req.create.newStore, s ≠ req.create.store := fun s hs => h.newStore_ne hs
  have hmem : ∀ {s}, s ∈ req.followerIds ↔ s ∈ region.stores ∧ s ≠ region.leaderStoreId :=
    h.mem_followerIds hregion
  unfold targets at htransfer
  cases hcreate : req.create with
  | removePeer storeId =>
    simp only [hcreate, CreateOperator.store] at htransfer
    obtain ⟨hleader, rfl⟩ | ⟨hold, id, hid, rfl⟩ := Operator.transferLeaderStep_eq_ok htransfer
    · exact .done hleader
    · obtain ⟨hid, hne⟩ := hmem.mp hid
      refine .transferLeader hid (.done fun leader hleader => ?_)
      rwa [RegionInfo.leader_transferLeader hleader, CreateOperator.store, ← hold]
  | movePeer oldStore newStore peerId =>
    simp only [hcreate, CreateOperator.store, CreateOperator.newStore, Option.mem_def,
      Option.some.injEq, forall_eq'] at htransfer hnew
    obtain ⟨hleader, rfl⟩ | ⟨hold, id, hid, rfl⟩ := Operator.transferLeaderStep_eq_ok htransfer
    · exact .addPeer (.done hleader)
    · -- The leader goes to a follower, or to the peer that was added before.
      have hto : id ∈ region.stores ++ [newStore] ∧ id ≠ oldStore := by
        obtain hid | hid := mem_append.mp hid
        · obtain ⟨hid, hne⟩ := hmem.mp hid
          exact ⟨mem_append_left _ hid, hold ▸ hne⟩
        · exact ⟨mem_append_right _ hid, mem_singleton.mp hid ▸ hnew⟩
      refine .addPeer (.transferLeader ?_ (.done fun leader hleader => ?_))
      · rw [RegionInfo.stores_addPeer]
        exact hto.1
      · rw [RegionInfo.leader_transferLeader hleader]
        exact hto.2
  | offlinePeer oldStore newStore peerId =>
    simp only [hcreate, CreateOperator.store] at htransfer
    obtain ⟨hleader, rfl⟩ | ⟨hold, id, hid, rfl⟩ := Operator.transferLeaderStep_eq_ok htransfer
    · exact .addPeer (.done hleader)
    · obtain ⟨hid, hne⟩ := hmem.mp hid
      refine .transferLeader hid (.addPeer (.done fun leader hleader => ?_))
      have hleader : leader ∈ (region.execute (.transferLeader oldStore id)).leader := hleader
      rw [RegionInfo.leader_transferLeader hleader]
      exact hold ▸ hne

section

variable {kind : ℕ} {transfer : List OpStep} {ids : List ℕ}
  (htransfer : Operator.transferLeaderStep req.hasStore region req.create.store ids =
    .ok (kind, transfer))
include htransfer

theorem addedStores_preparation :
    RegionInfo.addedStores (req.create.preparation transfer) = req.create.newStore.toList := by
  obtain ⟨-, rfl⟩ | ⟨-, id, -, rfl⟩ := Operator.transferLeaderStep_eq_ok htransfer
  all_goals cases req.create <;> rfl

theorem removePeer_notMem_preparation :
    ∀ s, OpStep.removePeer s ∉ req.create.preparation transfer := by
  intro s
  obtain ⟨-, rfl⟩ | ⟨-, id, -, rfl⟩ := Operator.transferLeaderStep_eq_ok htransfer
  all_goals
    cases req.create <;> simp [CreateOperator.preparation, Operator.createAddPeerSteps]

end

theorem addedStores_operator (h : req.operator region = .ok op) :
    RegionInfo.addedStores op.steps = req.create.newStore.toList := by
  obtain ⟨kind, transfer, htransfer, rfl⟩ := operator_eq_ok h
  calc RegionInfo.addedStores
        (req.create.preparation transfer ++ [OpStep.removePeer req.create.store])
      = RegionInfo.addedStores (req.create.preparation transfer) ++ [] := by
        rw [RegionInfo.addedStores, filterMap_append]
        rfl
    _ = req.create.newStore.toList := by
        rw [append_nil, addedStores_preparation htransfer]

theorem stores_operator (h : req.operator region = .ok op) : (region.executeAll op.steps).stores =
    (region.stores ++ req.create.newStore.toList).filter (· ≠ req.create.store) := by
  obtain ⟨kind, transfer, htransfer, rfl⟩ := operator_eq_ok h
  have hremove := removePeer_notMem_preparation htransfer
  calc (region.executeAll
        (req.create.preparation transfer ++ [.removePeer req.create.store])).stores
      = ((region.executeAll (req.create.preparation transfer)).execute
          (.removePeer req.create.store)).stores := by
        rw [RegionInfo.executeAll_append]
        rfl
    _ = (region.stores ++ req.create.newStore.toList).filter (· ≠ req.create.store) := by
        rw [RegionInfo.stores_removePeer, RegionInfo.stores_executeAll hremove,
          addedStores_preparation htransfer]

theorem Applies.executesSafely (h : req.Applies region) (hregion : region.Placed)
    (hop : req.operator region = .ok op) : ExecutesSafely req.create region op.steps := by
  have hstores := stores_operator hop
  obtain ⟨kind, transfer, htransfer, rfl⟩ := operator_eq_ok hop
  have hprepares := h.prepares hregion htransfer
  have hremove := hprepares.removePeer_notMem
  refine ⟨?_, ?_, ?_, ?_⟩
  · intro done st todo hsplit
    exact hprepares.allows hsplit
  · simp [Operator.newOperator]
  · intro _ done todo hsplit hne
    -- What is done is a part of the preparation, which removes nothing.
    apply RegionInfo.le_length_executeAll
    intro s hs
    refine hremove s ?_
    have hdrop : req.create.preparation transfer = done ++ todo.dropLast := by
      rw [← dropLast_append_of_ne_nil hne, ← hsplit]
      exact dropLast_concat.symm
    rw [hdrop]
    exact mem_append_left _ hs
  · have hnew : ∀ s ∈ req.create.newStore.toList, s ≠ req.create.store := fun s hs =>
      h.newStore_ne (Option.mem_toList.mp hs)
    have hkept : req.create.newStore.toList.filter (· ≠ req.create.store) =
        req.create.newStore.toList := filter_eq_self.mpr (by simpa using hnew)
    rw [filter_append, hkept, RegionInfo.filter_stores_ne hregion.stores] at hstores
    exact hstores ▸ perm_append_comm

theorem Applies.hasStore_targets (h : req.Applies region) (hregion : region.Placed) :
    ∀ s ∈ req.followerIds ++ req.create.extraTargets, req.hasStore s := by
  intro s hs
  obtain hs | hs := mem_append.mp hs
  · exact h.hasStore s ((h.mem_followerIds hregion).mp hs).1
  · refine h.hasStore_new s ?_
    cases hcreate : req.create with
    | removePeer storeId => simp [hcreate, CreateOperator.extraTargets] at hs
    | movePeer oldStore newStore peerId =>
      simp only [hcreate, CreateOperator.extraTargets, mem_singleton] at hs
      exact congrArg some hs.symm
    | offlinePeer oldStore newStore peerId => simp [hcreate, CreateOperator.extraTargets] at hs

theorem Applies.no_candidate (h : req.Applies region) (hregion : region.Placed)
    (herr : req.operator region = .error err) :
    region.leaderStoreId = req.create.store ∧ ∀ s ∈ req.create.candidates region, s = 0 := by
  obtain ⟨hold, hfind⟩ := Operator.transferLeaderStep_eq_error (operator_eq_error herr)
  refine ⟨hold, fun s hs => ?_⟩
  have hmem : ∀ {s}, s ∈ req.followerIds ↔ s ∈ region.stores ∧ s ≠ region.leaderStoreId :=
    h.mem_followerIds hregion
  have hs : s ∈ req.followerIds ++ req.create.extraTargets := by
    simpa [CreateOperator.candidates, hmem] using hs
  rw [targets_eq] at hfind
  obtain hnone | ⟨rest, hfirst⟩ :=
    Operator.findAvailableStore_eq_zero (h.hasStore_targets hregion) hfind
  · simp [hnone] at hs
  · -- The store without an id is not that of a follower, so that it is the new store.
    have hempty : req.followerIds = [] := by
      cases hids : req.followerIds with
      | nil => rfl
      | cons id ids =>
        rw [hids] at hfirst
        obtain ⟨rfl, -⟩ := List.cons.inj hfirst
        have hzero := (hmem.mp (hids ▸ mem_cons_self)).1
        exact absurd rfl (hregion.store_ne_zero 0 hzero)
    rw [hempty, nil_append] at hs hfirst
    cases hcreate : req.create with
    | removePeer storeId => simp [hcreate, CreateOperator.extraTargets] at hs
    | movePeer oldStore newStore peerId =>
      simp only [hcreate, CreateOperator.extraTargets, mem_singleton, List.cons.injEq]
        at hs hfirst
      exact hs.trans hfirst.1
    | offlinePeer oldStore newStore peerId => simp [hcreate, CreateOperator.extraTargets] at hs

/-- Whatever the functions return for a region whose peers are on different stores: an operator is
executed safely, and an error means that the leader is on the old store and has nowhere to go. -/
theorem operator_executesSafely (hregion : region.Placed) (h : req.Applies region) :
    (∀ op, req.operator region = .ok op → ExecutesSafely req.create region op.steps) ∧
      ∀ err, req.operator region = .error err →
        region.leaderStoreId = req.create.store ∧ ∀ s ∈ req.create.candidates region, s = 0 :=
  ⟨fun _ hop => h.executesSafely hregion hop, fun _ herr => h.no_candidate hregion herr⟩

def twoStores : RegionInfo :=
  { id := 1, confVer := 1, version := 1, peers := [⟨11, 1⟩, ⟨12, 2⟩], leader := some ⟨11, 1⟩ }

def leaveFirst : CreateRequest where
  regionId := 1
  create := .offlinePeer 1 3 13
  kind := 0
  hasStore s := s ≤ 3
  followerIds := [2]

theorem operator_executesSafely_leaveFirst :
    leaveFirst.operator twoStores = .ok (.newOperator twoStores (opLeader ||| opRegion)
      [.transferLeader 1 2, .addPeer 3 13, .removePeer 1]) ∧
    ExecutesSafely leaveFirst.create twoStores
      [.transferLeader 1 2, .addPeer 3 13, .removePeer 1] := by
  have hop : leaveFirst.operator twoStores = .ok (.newOperator twoStores (opLeader ||| opRegion)
      [.transferLeader 1 2, .addPeer 3 13, .removePeer 1]) := by decide
  have hregion : twoStores.Placed := ⟨by decide, by decide, by decide, ⟨11, 1⟩, by decide, rfl⟩
  have happlies : leaveFirst.Applies twoStores :=
    ⟨by decide, by decide, by decide, by decide, by decide⟩
  exact ⟨hop, (operator_executesSafely hregion happlies).1 _ hop⟩

end CreateRequest

end TinyKV
