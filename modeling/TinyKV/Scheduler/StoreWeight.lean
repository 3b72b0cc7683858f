import TinyKV.Scheduler.ClusterStores

/-!
# Setting the weights of a store

`SetStoreWeight` of `scheduler/server/cluster.go` saves the leader weight, the region weight and the
store, and then changes the memory.
-/

namespace TinyKV

open List

namespace StoreTable

variable {W : Type}

def weights (t : StoreTable W) (i : UInt64) : Option (W × W) :=
  (t.getStore i).map fun s => (s.leaderWeight, s.regionWeight)

theorem weights_setStore (t : StoreTable W) (s : SavedStore W) :
    (t.setStore s).weights s.id = some (s.leaderWeight, s.regionWeight) := by
  rw [weights, getStore_setStore, if_pos rfl, Option.map_some]

end StoreTable

namespace Encoding

variable {W : Type} {e : Encoding W} {b : KvBase} {stores : List MetaStore} {m : MetaStore}
  {i j : UInt64} {path : Bytes}

def reload (e : Encoding W) (b : KvBase) : Option (StoreTable W) :=
  match e.loadStores (b.pairs.length + 1) b StoreTable.setStore (StoreTable.newStoresInfo W) with
  | some (.ok t) => some t
  | _ => none

/-- The storage has the stores of the list, and numbers as their weights. -/
structure Stored (e : Encoding W) (b : KvBase) (stores : List MetaStore) : Prop
    extends e.Holds b stores where
  lt_max : ∀ store ∈ stores, store.id < maxUint64
  parseable : ∀ store ∈ stores, e.Parseable b store.id

def reloaded (e : Encoding W) (b : KvBase) (i : UInt64) : Option (W × W) :=
  (e.reload b).bind fun t => t.weights i

theorem Stored.reload_eq (h : e.Stored b stores) : ∃ t, e.reload b = some t ∧
    ∀ i s, t.getStore i = some s ↔ ∃ m ∈ stores, m.id = i ∧ e.saved b m = s := by
  have hlength : stores.length ≤ b.pairs.length := by
    have hpairs := congrArg List.length h.pairs_eq
    rw [length_map] at hpairs
    rw [← hpairs]
    exact length_filter_le _ _
  have hrounds : stores.length / minKVRangeLimit < b.pairs.length + 1 :=
    Nat.lt_succ_of_le ((Nat.div_le_self _ _).trans hlength)
  have hids : (stores.map (e.saved b)).Pairwise fun s s' => s.id ≠ s'.id := by
    refine pairwise_map.mpr (h.sorted.imp fun hlt heq => hlt.ne ?_)
    exact congrArg UInt64.toNat heq
  refine ⟨_, by rw [reload, h.toHolds.loadStores_eq h.lt_max h.parseable hrounds], fun i s => ?_⟩
  rw [StoreTable.getStore_foldl_setStore hids, mem_map]
  constructor
  · rintro ⟨⟨m, hm, rfl⟩, rfl⟩
    exact ⟨m, hm, rfl, rfl⟩
  · rintro ⟨m, hm, rfl, rfl⟩
    exact ⟨⟨m, hm, rfl⟩, rfl⟩

theorem Stored.reloaded_eq (h : e.Stored b stores) (hm : m ∈ stores) : e.reloaded b m.id =
    some (e.weightAt b (storeLeaderWeightPath m.id),
      e.weightAt b (storeRegionWeightPath m.id)) := by
  obtain ⟨t, ht, hget⟩ := h.reload_eq
  have hfound := (hget m.id (e.saved b m)).mpr ⟨m, hm, rfl, rfl⟩
  rw [reloaded, ht, Option.bind_some, StoreTable.weights, hfound, Option.map_some]
  rfl

theorem formatFloat_ne_nil (e : Encoding W) (w : W) : e.formatFloat w ≠ [] := by
  intro h
  have hparse := e.parseFloat_formatFloat w
  rw [h, e.parseFloat_nil] at hparse
  cases hparse

theorem loadFloat_save_self (w : W) :
    e.loadFloatWithDefaultValue (b.save path (e.formatFloat w)) path e.one = some w := by
  rw [loadFloatWithDefaultValue, KvBase.load_save_self, if_neg (e.formatFloat_ne_nil w),
    e.parseFloat_formatFloat]

theorem loadFloat_save_of_ne {key : Bytes} (h : path ≠ key) (value : Bytes) :
    e.loadFloatWithDefaultValue (b.save key value) path e.one =
      e.loadFloatWithDefaultValue b path e.one := by
  rw [loadFloatWithDefaultValue, KvBase.load_save_of_ne h, loadFloatWithDefaultValue]

@[simp]
theorem weightAt_save_self (w : W) : e.weightAt (b.save path (e.formatFloat w)) path = w := by
  rw [weightAt, loadFloat_save_self, Option.getD_some]

theorem weightAt_save_of_ne {key : Bytes} (h : path ≠ key) (value : Bytes) :
    e.weightAt (b.save key value) path = e.weightAt b path := by
  rw [weightAt, loadFloat_save_of_ne h, weightAt]

theorem storeLeaderWeightPath_ne : storeLeaderWeightPath i ≠ storeRegionWeightPath j := by
  intro h
  have hlast := congrArg List.getLast? h
  simp [storeLeaderWeightPath, storeRegionWeightPath, ascii] at hlast

theorem weightAt_saveStore (hpath : ¬ storeDir <+: path) (m : MetaStore) :
    e.weightAt (e.saveStore b m) path = e.weightAt b path := by
  refine weightAt_save_of_ne ?_ _
  rintro rfl
  exact hpath (prefix_append _ _)

theorem Stored.save_weight (h : e.Stored b stores)
    (hpath : path ∈ [storeLeaderWeightPath i, storeRegionWeightPath i]) (w : W) :
    e.Stored (b.save path (e.formatFloat w)) stores where
  toHolds := h.toHolds.save (not_isPrefix_of_mem hpath) _
  lt_max := h.lt_max
  parseable store hstore path' hpath' := by
    by_cases heq : path' = path
    · rw [heq, loadFloat_save_self]
      simp
    · rw [loadFloat_save_of_ne heq]
      exact h.parseable store hstore path' hpath'

theorem Stored.saveStore (h : e.Stored b stores) (hm : m ∈ stores) :
    e.Stored (e.saveStore b m) stores where
  toHolds := by
    have hsame : OrderedList.replaceOrInsert (fun store => store.id.toNat) m stores = stores := by
      refine h.sorted.replaceOrInsert.ext h.sorted fun m' => ?_
      rw [OrderedList.mem_replaceOrInsert]
      constructor
      · rintro (rfl | ⟨hm', -⟩)
        · exact hm
        · exact hm'
      · intro hm'
        by_cases hid : m'.id.toNat = m.id.toNat
        · exact Or.inl (h.sorted.eq_of_key_eq hm' hm hid)
        · exact Or.inr ⟨hm', hid⟩
    exact hsame ▸ h.toHolds.saveStore m
  lt_max := h.lt_max
  parseable store hstore := (parseable_foldl_saveStore [m]).mpr (h.parseable store hstore)

def saveLeader (e : Encoding W) (b : KvBase) (i : UInt64) (leader : W) : KvBase :=
  b.save (storeLeaderWeightPath i) (e.formatFloat leader)

def saveBoth (e : Encoding W) (b : KvBase) (i : UInt64) (leader region : W) : KvBase :=
  (e.saveLeader b i leader).save (storeRegionWeightPath i) (e.formatFloat region)

theorem Stored.saveBoth (h : e.Stored b stores) (leader region : W) :
    e.Stored (e.saveBoth b i leader region) stores :=
  (h.save_weight (i := i) (by simp) leader).save_weight (i := i) (by simp) region

theorem Stored.reloaded_saveLeader (h : e.Stored b stores) (hm : m ∈ stores) (leader : W) :
    e.reloaded (e.saveLeader b m.id leader) m.id =
      some (leader, e.weightAt b (storeRegionWeightPath m.id)) := by
  rw [saveLeader, Stored.reloaded_eq (h.save_weight (i := m.id) (by simp) leader) hm,
    weightAt_save_self,
    weightAt_save_of_ne storeLeaderWeightPath_ne.symm]

theorem weightAt_saveBoth (leader region : W) :
    e.weightAt (e.saveBoth b i leader region) (storeLeaderWeightPath i) = leader ∧
      e.weightAt (e.saveBoth b i leader region) (storeRegionWeightPath i) = region := by
  refine ⟨?_, weightAt_save_self region⟩
  rw [Encoding.saveBoth, weightAt_save_of_ne storeLeaderWeightPath_ne]
  exact weightAt_save_self leader

theorem Stored.reloaded_saveBoth (h : e.Stored b stores) (hm : m ∈ stores) (leader region : W) :
    e.reloaded (e.saveBoth b m.id leader region) m.id = some (leader, region) := by
  rw [Stored.reloaded_eq (h.saveBoth leader region) hm, (weightAt_saveBoth leader region).1,
    (weightAt_saveBoth leader region).2]

theorem Stored.reloaded_saveStore (h : e.Stored b stores) (hm : m ∈ stores) (leader region : W) :
    e.reloaded (e.saveStore (e.saveBoth b m.id leader region) m) m.id = some (leader, region) := by
  have hdir : ∀ path ∈ [storeLeaderWeightPath m.id, storeRegionWeightPath m.id],
      ¬ storeDir <+: path := fun _ => not_isPrefix_of_mem
  rw [Stored.reloaded_eq ((h.saveBoth leader region).saveStore hm) hm,
    weightAt_saveStore (hdir _ (by simp)), weightAt_saveStore (hdir _ (by simp)),
    (weightAt_saveBoth leader region).1, (weightAt_saveBoth leader region).2]

end Encoding

namespace StoreCluster

variable {W : Type} {e : Encoding W} {c : StoreCluster W}

def Agrees (e : Encoding W) (c : StoreCluster W) : Prop :=
  ∃ stores, e.Stored c.base stores ∧
    ∀ i s, c.getStore i = some s ↔ ∃ m ∈ stores, m.id = i ∧ e.saved c.base m = s

def AllOrNothing (e : Encoding W) (c : StoreCluster W) (i : UInt64) (leaderWeight regionWeight : W)
    (leaderFails regionFails storeFails : Bool) : Prop :=
  let r := c.setStoreWeight e i leaderWeight regionWeight leaderFails regionFails storeFails
  (r.2 ≠ none → e.reloaded r.1.base i = e.reloaded c.base i ∧
      r.1.table.weights i = c.table.weights i) ∧
    (r.2 = none → e.reloaded r.1.base i = some (leaderWeight, regionWeight) ∧
      r.1.table.weights i = some (leaderWeight, regionWeight))

/-- With a storage that agrees with the memory, and whichever saves fail: setting the weights is all
or nothing if and only if what was saved before a save failed are the weights that the store had. -/
theorem allOrNothing_iff (hc : c.Agrees e) (i : UInt64) (leaderWeight regionWeight : W)
    (leaderFails regionFails storeFails : Bool) :
    c.AllOrNothing e i leaderWeight regionWeight leaderFails regionFails storeFails ↔
      ∀ s, c.getStore i = some s → leaderFails = false →
        (regionFails = true → leaderWeight = s.leaderWeight) ∧
        (regionFails = false → c.hasStorage = true → storeFails = true →
          leaderWeight = s.leaderWeight ∧ regionWeight = s.regionWeight) := by
  obtain ⟨stores, hstored, hget⟩ := hc
  unfold AllOrNothing setStoreWeight
  cases hs : c.getStore i with
  | none => simp
  | some s =>
    obtain ⟨m, hm, rfl, rfl⟩ := (hget i s).mp hs
    have hbefore := hstored.reloaded_eq hm
    have hweights : (c.table.setStore ⟨m, leaderWeight, regionWeight⟩).weights m.id =
        some (leaderWeight, regionWeight) := c.table.weights_setStore ⟨m, _, _⟩
    -- One case for each point where the call can fail, and two for its success.
    cases leaderFails with
    | true => simp [Encoding.saveStoreWeight]
    | false =>
      cases regionFails with
      | true =>
        have hafter := hstored.reloaded_saveLeader hm leaderWeight
        unfold Encoding.saveLeader at hafter
        simp [Encoding.saveStoreWeight, hafter, hbefore, Encoding.saved]
      | false =>
        have hafter := hstored.reloaded_saveBoth hm leaderWeight regionWeight
        have hstore := hstored.reloaded_saveStore hm leaderWeight regionWeight
        unfold Encoding.saveBoth Encoding.saveLeader at hafter hstore
        cases hstorage : c.hasStorage with
        | false => simp [Encoding.saveStoreWeight, putStoreLocked, hafter, hweights,
            Encoding.saved]
        | true =>
          cases storeFails <;>
            simp [Encoding.saveStoreWeight, putStoreLocked, hafter, hbefore, hstore,
              hweights, Encoding.saved]

def oneStore : StoreCluster UInt8 where
  base := Encoding.byteEncoding.saveStore ⟨[], List.Pairwise.nil⟩ { id := 1 }
  hasStorage := true
  table := (StoreTable.newStoresInfo UInt8).setStore ⟨{ id := 1 }, 1, 1⟩

theorem agrees_oneStore : oneStore.Agrees Encoding.byteEncoding := by
  have hholds : Encoding.byteEncoding.Holds oneStore.base [{ id := 1 }] :=
    Encoding.holds_foldl_saveStore (b := ⟨[], List.Pairwise.nil⟩) (by simp) [{ id := 1 }]
  have hsaved : Encoding.byteEncoding.saved oneStore.base { id := 1 } = ⟨{ id := 1 }, 1, 1⟩ := by
    decide +kernel
  refine ⟨[{ id := 1 }], ⟨hholds, by decide, ?_⟩, fun i s => ?_⟩
  · intro store hstore
    obtain rfl := mem_singleton.mp hstore
    unfold Encoding.Parseable
    decide +kernel
  · have hget : oneStore.getStore i = if i = 1 then some ⟨{ id := 1 }, 1, 1⟩ else none :=
      StoreTable.getStore_setStore
    rw [hget]
    simp only [mem_singleton, exists_eq_left, hsaved]
    split_ifs with hi
    · simp [hi]
    · simp [Ne.symm hi]

theorem oneStore_half_saved : oneStore.Agrees Encoding.byteEncoding ∧
    ¬ oneStore.AllOrNothing Encoding.byteEncoding 1 2 3 false true false := by
  refine ⟨agrees_oneStore, fun h => ?_⟩
  have hreloaded := (h.1 (by decide +kernel)).1
  revert hreloaded
  decide +kernel

theorem oneStore_nothing_saved : oneStore.Agrees Encoding.byteEncoding ∧
    oneStore.AllOrNothing Encoding.byteEncoding 1 2 3 true false false :=
  ⟨agrees_oneStore, (allOrNothing_iff agrees_oneStore 1 2 3 true false false).mpr (by simp)⟩

end StoreCluster

end TinyKV
