import TinyKV.Scheduler.Storage

/-!
# The stores of the cluster

`RaftCluster` of `scheduler/server/cluster.go` keeps the stores in memory and in the storage.
-/

namespace TinyKV

open List

namespace SavedStore

variable {W : Type}

def id (s : SavedStore W) : UInt64 := s.metaStore.id

def address (s : SavedStore W) : Bytes := s.metaStore.address

def isUp (s : SavedStore W) : Bool := s.metaStore.state = .up

def isOffline (s : SavedStore W) : Bool := s.metaStore.state = .offline

def isTombstone (s : SavedStore W) : Bool := s.metaStore.state = .tombstone

def setStoreAddress (address : Bytes) (s : SavedStore W) : SavedStore W :=
  { s with metaStore := { s.metaStore with address := address } }

def setStoreState (state : StoreState) (s : SavedStore W) : SavedStore W :=
  { s with metaStore := { s.metaStore with state := state } }

@[simp]
theorem id_setStoreAddress (s : SavedStore W) (address : Bytes) :
    (s.setStoreAddress address).id = s.id := rfl

@[simp]
theorem address_setStoreAddress (s : SavedStore W) (address : Bytes) :
    (s.setStoreAddress address).address = address := rfl

@[simp]
theorem id_setStoreState (s : SavedStore W) (state : StoreState) :
    (s.setStoreState state).id = s.id := rfl

@[simp]
theorem address_setStoreState (s : SavedStore W) (state : StoreState) :
    (s.setStoreState state).address = s.address := rfl

@[simp]
theorem isTombstone_setStoreState (s : SavedStore W) (state : StoreState) :
    (s.setStoreState state).isTombstone = decide (state = .tombstone) := rfl

end SavedStore

structure StoreTable (W : Type) where
  stores : AList fun _ : UInt64 => SavedStore W
  id_eq : ∀ id s, stores.lookup id = some s → s.id = id

namespace StoreTable

variable {W : Type} {t : StoreTable W} {s s' : SavedStore W} {i : UInt64}

def newStoresInfo (W : Type) : StoreTable W := ⟨∅, by simp⟩

def getStore (t : StoreTable W) (storeID : UInt64) : Option (SavedStore W) :=
  t.stores.lookup storeID

def getStores (t : StoreTable W) : List (SavedStore W) := t.stores.entries.map Sigma.snd

def setStore (t : StoreTable W) (s : SavedStore W) : StoreTable W where
  stores := t.stores.insert s.id s
  id_eq i found hfound := by
    by_cases hi : i = s.id
    · subst hi
      rw [AList.lookup_insert] at hfound
      rw [← Option.some.inj hfound]
    · rw [AList.lookup_insert_ne hi] at hfound
      exact t.id_eq i found hfound

theorem id_of_getStore (h : t.getStore i = some s) : s.id = i := t.id_eq i s h

theorem mem_getStores : s ∈ t.getStores ↔ t.getStore s.id = some s := by
  unfold getStores
  rw [mem_map]
  constructor
  · rintro ⟨⟨i, s⟩, hmem, rfl⟩
    have hfound : t.getStore i = some s := AList.mem_lookup_iff.mpr hmem
    rwa [id_of_getStore hfound]
  · intro h
    exact ⟨⟨s.id, s⟩, AList.mem_lookup_iff.mp h, rfl⟩

theorem getStore_newStoresInfo : (newStoresInfo W).getStore i = none := rfl

theorem getStore_setStore :
    (t.setStore s).getStore i = if i = s.id then some s else t.getStore i := by
  unfold getStore setStore
  split_ifs with h
  · rw [h, AList.lookup_insert]
  · rw [AList.lookup_insert_ne h]

theorem getStore_foldl_setStore {infos : List (SavedStore W)}
    (hids : infos.Pairwise fun s s' => s.id ≠ s'.id) :
    (infos.foldl setStore (newStoresInfo W)).getStore i = some s ↔ s ∈ infos ∧ s.id = i := by
  induction infos using List.reverseRecOn with
  | nil => simp [getStore_newStoresInfo]
  | append_singleton infos x ih =>
    obtain ⟨hinfos, -, hx⟩ := pairwise_append.mp hids
    rw [foldl_append, foldl_cons, foldl_nil, getStore_setStore]
    split_ifs with hi
    · constructor
      · intro h
        obtain rfl := Option.some.inj h
        exact ⟨by simp, hi.symm⟩
      · rintro ⟨hmem, hs⟩
        rcases mem_append.mp hmem with hmem | hmem
        · exact absurd (hs.trans hi) (hx s hmem x (by simp))
        · rw [mem_singleton.mp hmem]
    · rw [ih hinfos]
      constructor
      · rintro ⟨hmem, hs⟩
        exact ⟨mem_append_left _ hmem, hs⟩
      · rintro ⟨hmem, hs⟩
        rcases mem_append.mp hmem with hmem | hmem
        · exact ⟨hmem, hs⟩
        · rw [mem_singleton.mp hmem] at hs
          exact absurd hs.symm hi

end StoreTable

inductive StoreCallError
  | invalidPut (store : MetaStore)
  | duplicatedAddress (store registered : MetaStore)
  | storeNotFound (storeID : UInt64)
  | storeTombstoned (storeID : UInt64)
  | storeStillUp
  | save
deriving DecidableEq, Repr

structure StoreCluster (W : Type) where
  base : KvBase
  hasStorage : Bool
  table : StoreTable W

def Encoding.saveStoreWeight {W : Type} (e : Encoding W) (b : KvBase) (storeID : UInt64)
    (leader region : W) (leaderFails regionFails : Bool) : KvBase × Option StoreCallError :=
  if leaderFails then (b, some .save)
  else
    let b := b.save (storeLeaderWeightPath storeID) (e.formatFloat leader)
    if regionFails then (b, some .save)
    else (b.save (storeRegionWeightPath storeID) (e.formatFloat region), none)

namespace StoreCluster

variable {W : Type}

def getStore (c : StoreCluster W) (storeID : UInt64) : Option (SavedStore W) :=
  c.table.getStore storeID

def putStoreLocked (e : Encoding W) (c : StoreCluster W) (s : SavedStore W) (fails : Bool) :
    StoreCluster W × Option StoreCallError :=
  if c.hasStorage then
    if fails then (c, some .save)
    else ({ c with base := e.saveStore c.base s.metaStore, table := c.table.setStore s }, none)
  else ({ c with table := c.table.setStore s }, none)

def putStore (e : Encoding W) (c : StoreCluster W) (store : MetaStore) (fails : Bool) :
    StoreCluster W × Option StoreCallError :=
  if store.id = 0 then (c, some (.invalidPut store))
  else
    match c.table.getStores.find? fun s =>
        !s.isTombstone && (s.id ≠ store.id && s.address = store.address) with
    | some s => (c, some (.duplicatedAddress store s.metaStore))
    | none =>
      match c.getStore store.id with
      | none => c.putStoreLocked e ⟨store, e.one, e.one⟩ fails
      | some s => c.putStoreLocked e (s.setStoreAddress store.address) fails

def removeStore (e : Encoding W) (c : StoreCluster W) (storeID : UInt64) (fails : Bool) :
    StoreCluster W × Option StoreCallError :=
  match c.getStore storeID with
  | none => (c, some (.storeNotFound storeID))
  | some s =>
    if s.isOffline then (c, none)
    else if s.isTombstone then (c, some (.storeTombstoned storeID))
    else c.putStoreLocked e (s.setStoreState .offline) fails

def buryStore (e : Encoding W) (c : StoreCluster W) (storeID : UInt64) (force fails : Bool) :
    StoreCluster W × Option StoreCallError :=
  match c.getStore storeID with
  | none => (c, some (.storeNotFound storeID))
  | some s =>
    if s.isTombstone then (c, none)
    else if s.isUp && !force then (c, some .storeStillUp)
    else c.putStoreLocked e (s.setStoreState .tombstone) fails

def setStoreState (e : Encoding W) (c : StoreCluster W) (storeID : UInt64) (state : StoreState)
    (fails : Bool) : StoreCluster W × Option StoreCallError :=
  match c.getStore storeID with
  | none => (c, some (.storeNotFound storeID))
  | some s => c.putStoreLocked e (s.setStoreState state) fails

def setStoreWeight (e : Encoding W) (c : StoreCluster W) (storeID : UInt64)
    (leaderWeight regionWeight : W) (leaderFails regionFails storeFails : Bool) :
    StoreCluster W × Option StoreCallError :=
  match c.getStore storeID with
  | none => (c, some (.storeNotFound storeID))
  | some s =>
    match e.saveStoreWeight c.base storeID leaderWeight regionWeight leaderFails regionFails with
    | (base, some err) => ({ c with base := base }, some err)
    | (base, none) =>
      putStoreLocked e { c with base := base }
        { s with leaderWeight := leaderWeight, regionWeight := regionWeight } storeFails

end StoreCluster

namespace StoreTable

variable {W : Type} {t : StoreTable W} {s : SavedStore W} {i : UInt64}

def DistinctAddresses (t : StoreTable W) : Prop :=
  ∀ i j s s', t.getStore i = some s → t.getStore j = some s' → i ≠ j → s.isTombstone = false →
    s'.isTombstone = false → s.address ≠ s'.address

def Taken (t : StoreTable W) (i : UInt64) (address : Bytes) : Prop :=
  ∃ j s, j ≠ i ∧ t.getStore j = some s ∧ s.isTombstone = false ∧ s.address = address

theorem DistinctAddresses.not_taken (h : t.DistinctAddresses) (hs : t.getStore i = some s)
    (hlive : s.isTombstone = false) : ¬ t.Taken i s.address := by
  rintro ⟨j, s', hj, hs', hlive', haddress⟩
  exact h j i s' s hs' hs hj hlive' hlive haddress

theorem DistinctAddresses.setStore_iff (h : t.DistinctAddresses) :
    (t.setStore s).DistinctAddresses ↔ (s.isTombstone = false → ¬ t.Taken s.id s.address) := by
  constructor
  · rintro h' hlive ⟨j, s', hj, hs', hlive', haddress⟩
    refine h' j s.id s' s ?_ ?_ hj hlive' hlive haddress
    · rw [getStore_setStore, if_neg hj, hs']
    · rw [getStore_setStore, if_pos rfl]
  · intro hfree i j s₁ s₂ hs₁ hs₂ hij hlive₁ hlive₂ haddress
    rw [getStore_setStore] at hs₁ hs₂
    split_ifs at hs₁ hs₂ with hi hj hj
    · exact hij (hi.trans hj.symm)
    · obtain rfl := Option.some.inj hs₁
      exact hfree hlive₁ ⟨j, s₂, hj, hs₂, hlive₂, haddress.symm⟩
    · obtain rfl := Option.some.inj hs₂
      exact hfree hlive₂ ⟨i, s₁, hi, hs₁, hlive₁, haddress⟩
    · exact h i j s₁ s₂ hs₁ hs₂ hij hlive₁ hlive₂ haddress

end StoreTable

inductive StoreCall
  | putStore (store : MetaStore) (fails : Bool)
  | removeStore (storeID : UInt64) (fails : Bool)
  | buryStore (storeID : UInt64) (force fails : Bool)
  | setStoreState (storeID : UInt64) (state : StoreState) (fails : Bool)
deriving DecidableEq, Repr

namespace StoreCluster

variable {W : Type} {e : Encoding W} {c : StoreCluster W}

/-- What the call does, and what it returns. -/
def call (e : Encoding W) (c : StoreCluster W) : StoreCall → StoreCluster W × Option StoreCallError
  | .putStore store fails => c.putStore e store fails
  | .removeStore storeID fails => c.removeStore e storeID fails
  | .buryStore storeID force fails => c.buryStore e storeID force fails
  | .setStoreState storeID state fails => c.setStoreState e storeID state fails

def machine (e : Encoding W) : Machine (StoreCluster W) StoreCall where
  step c call := some (c.call e call).1

def Revives (c : StoreCluster W) : StoreCall → Prop
  | .setStoreState storeID state fails => (c.hasStorage && fails) = false ∧ state ≠ .tombstone ∧
    ∃ s, c.getStore storeID = some s ∧ s.isTombstone = true ∧ c.table.Taken storeID s.address
  | _ => False

theorem table_putStoreLocked (s : SavedStore W) (fails : Bool) :
    (c.putStoreLocked e s fails).1.table =
      if c.hasStorage && fails then c.table else c.table.setStore s := by
  unfold putStoreLocked
  cases c.hasStorage <;> cases fails <;> rfl

section

variable (h : c.table.DistinctAddresses)
include h

theorem distinctAddresses_putStoreLocked (s : SavedStore W)
    (hfree : s.isTombstone = false → ¬ c.table.Taken s.id s.address) (fails : Bool) :
    (c.putStoreLocked e s fails).1.table.DistinctAddresses := by
  rw [table_putStoreLocked]
  split_ifs
  · exact h
  · exact h.setStore_iff.mpr hfree

theorem distinctAddresses_putStore (store : MetaStore)
    (fails : Bool) : (c.putStore e store fails).1.table.DistinctAddresses := by
  unfold putStore
  split_ifs
  · exact h
  split
  · exact h
  · rename_i hfind
    have hfree : ¬ c.table.Taken store.id store.address := by
      rintro ⟨j, s, hj, hs, hlive, haddress⟩
      have hid := StoreTable.id_of_getStore hs
      have hmem : s ∈ c.table.getStores := StoreTable.mem_getStores.mpr (by rwa [hid])
      have := find?_eq_none.mp hfind s hmem
      simp [hlive, hid, hj, haddress] at this
    split
    · exact distinctAddresses_putStoreLocked h ⟨store, e.one, e.one⟩ (fun _ => hfree) fails
    · rename_i s hs
      refine distinctAddresses_putStoreLocked h _ (fun _ => ?_) fails
      rwa [s.id_setStoreAddress, s.address_setStoreAddress, StoreTable.id_of_getStore hs]

theorem distinctAddresses_removeStore (storeID : UInt64)
    (fails : Bool) : (c.removeStore e storeID fails).1.table.DistinctAddresses := by
  unfold removeStore
  split
  · exact h
  · rename_i s hs
    split_ifs with hoffline htombstone
    · exact h
    · exact h
    · -- A store that goes offline was not a tombstone before.
      refine distinctAddresses_putStoreLocked h _ (fun _ => ?_) fails
      rw [s.id_setStoreState, s.address_setStoreState, StoreTable.id_of_getStore hs]
      exact h.not_taken hs (by simpa using htombstone)

theorem distinctAddresses_buryStore (storeID : UInt64)
    (force fails : Bool) : (c.buryStore e storeID force fails).1.table.DistinctAddresses := by
  unfold buryStore
  split
  · exact h
  · split_ifs
    · exact h
    · exact h
    · exact distinctAddresses_putStoreLocked h _ (fun hlive => by simp at hlive) fails

theorem distinctAddresses_setStoreState_iff (storeID : UInt64) (state : StoreState) (fails : Bool) :
    (c.setStoreState e storeID state fails).1.table.DistinctAddresses ↔
      ¬ c.Revives (.setStoreState storeID state fails) := by
  unfold setStoreState Revives
  cases hs : c.getStore storeID with
  | none => simpa [hs] using h
  | some s =>
    have hid : s.id = storeID := StoreTable.id_of_getStore hs
    -- The address of a store that was no tombstone is not taken.
    have hlive : s.isTombstone = false → ¬ c.table.Taken storeID s.address := h.not_taken hs
    simp only [hs, table_putStoreLocked, Option.some.injEq, exists_eq_left']
    cases hfails : c.hasStorage && fails with
    | true => simpa using h
    | false =>
      rw [if_neg (by simp), h.setStore_iff, s.id_setStoreState, s.address_setStoreState,
        s.isTombstone_setStoreState, hid]
      cases htombstone : s.isTombstone with
      | true => simp
      | false => simpa using fun _ => hlive htombstone

theorem distinctAddresses_call_iff (call : StoreCall) :
    (c.call e call).1.table.DistinctAddresses ↔ ¬ c.Revives call := by
  cases call with
  | putStore store fails =>
    exact iff_of_true (distinctAddresses_putStore h store fails) not_false
  | removeStore storeID fails =>
    exact iff_of_true (distinctAddresses_removeStore h storeID fails) not_false
  | buryStore storeID force fails =>
    exact iff_of_true (distinctAddresses_buryStore h storeID force fails) not_false
  | setStoreState storeID state fails =>
    exact distinctAddresses_setStoreState_iff h storeID state fails

end

/-- From a cluster without stores and for any calls, whichever saves fail: no two stores that are
not tombstones ever have one address if and only if no call revives a store whose address is
taken. -/
theorem throughout_distinctAddresses_iff (e : Encoding W) (base : KvBase) (hasStorage : Bool)
    (calls : List StoreCall) :
    (machine e).Throughout (fun c => c.table.DistinctAddresses)
        ⟨base, hasStorage, StoreTable.newStoresInfo W⟩ calls ↔
      (machine e).Along (fun c call _ => ¬ c.Revives call)
        ⟨base, hasStorage, StoreTable.newStoresInfo W⟩ calls := by
  refine Machine.throughout_iff_along (I := fun _ => True) trivial ?_ ?_
  · intro i j s s' hs
    simp [StoreTable.getStore_newStoresInfo] at hs
  · intro c call c' _ h hstep
    obtain rfl := Option.some.inj hstep
    exact ⟨trivial, distinctAddresses_call_iff h call⟩

def reusedAddress : List StoreCall :=
  [.putStore { id := 1, address := [97] } false, .buryStore 1 true false,
    .putStore { id := 2, address := [97] } false, .setStoreState 1 .up false]

theorem reusedAddress_shares : ¬ (machine Encoding.byteEncoding).Throughout
    (fun c => c.table.DistinctAddresses)
    ⟨Encoding.weightBase, true, StoreTable.newStoresInfo UInt8⟩ reusedAddress := by
  intro h
  have hfinal := h reusedAddress [] _ (append_nil _).symm rfl
  exact hfinal 1 2 _ _ rfl rfl (by decide) rfl rfl rfl

end StoreCluster

end TinyKV
