import TinyKV.Balancing
import TinyKV.Scheduler.BalanceLeader
import TinyKV.Scheduler.OperatorSteps

/-!
# The leaders come to rest

When an operator of `balanceLeaderScheduler` is carried out, the region is reported with
`SetRegion`, and `updateStoreStatusLocked` of `scheduler/server/cluster.go` reads the counts of the
stores from the index (`carryOut`).
-/

namespace TinyKV

open List

namespace StoresInfo

def updateStoreStatus (s : StoresInfo) (storeId : ℕ) (leaderCount regionSize : ℤ) : StoresInfo :=
  match h : s.getStore storeId with
  | none => s
  | some store =>
    s.setStore { store with leaderCount := leaderCount, regionSize := regionSize } (by
      rw [id_of_getStore h]
      exact ne_zero_of_getStore h)

theorem getStore_updateStoreStatus (s : StoresInfo) (storeId : ℕ) (leaderCount regionSize : ℤ)
    (id : ℕ) : (s.updateStoreStatus storeId leaderCount regionSize).getStore id =
      (s.getStore id).map fun store =>
        if id = storeId then { store with leaderCount := leaderCount, regionSize := regionSize }
        else store := by
  unfold updateStoreStatus
  split
  · rename_i hnone
    by_cases hid : id = storeId
    · simp [hid, hnone]
    · simp [hid]
  · rename_i store hsome
    have hstore : store.id = storeId := id_of_getStore hsome
    rw [getStore_setStore]
    by_cases hid : id = storeId
    · simp [hid, hsome, hstore]
    · simp [hid, hstore]

end StoresInfo

namespace RaftCluster

def updateStoreStatusLocked (c : RaftCluster) (id : ℕ) : RaftCluster :=
  { c with
    stores := c.stores.updateStoreStatus id (c.regions.getStoreLeaderCount id)
      (c.regions.getStoreRegionSize id) }

theorem updateAll_spec (ids : List ℕ) (c : RaftCluster) :
    (ids.foldl updateStoreStatusLocked c).regions = c.regions ∧
      ∀ s, (ids.foldl updateStoreStatusLocked c).stores.getStore s =
        (c.stores.getStore s).map fun store =>
          if s ∈ ids then
            { store with
              leaderCount := c.regions.getStoreLeaderCount s
              regionSize := c.regions.getStoreRegionSize s }
          else store := by
  induction ids generalizing c with
  | nil => simp
  | cons id ids ih =>
    obtain ⟨hregions, hstores⟩ := ih (c.updateStoreStatusLocked id)
    refine ⟨hregions, fun s => ?_⟩
    rw [foldl_cons, hstores]
    simp only [updateStoreStatusLocked, StoresInfo.getStore_updateStoreStatus, Option.map_map]
    congr 1
    funext store
    by_cases hs : s = id
    · subst hs
      by_cases hmem : s ∈ ids <;> simp [hmem]
    · by_cases hmem : s ∈ ids <;> simp [hs, hmem]

def storeIds (c : RaftCluster) : Finset ℕ := c.stores.stores.keys.toFinset

theorem mem_storeIds {c : RaftCluster} {s : ℕ} : s ∈ c.storeIds ↔ c.stores.getStore s ≠ none := by
  unfold storeIds StoresInfo.getStore
  rw [mem_toFinset, ← Option.isSome_iff_ne_none, AList.lookup_isSome]
  rfl

end RaftCluster

def RegionInfo.leaderOn (s : ℕ) (region : RegionInfo) : Bool :=
  region.leader.any fun leader => leader.storeId = s

namespace RegionsInfo

variable {r r' : RegionsInfo} {region region' : RegionInfo}

theorem Inv.getStoreLeaderCount_eq (h : r.Inv) (s : ℕ) :
    r.getStoreLeaderCount s = r.tree.countP (RegionInfo.leaderOn s) := by
  have hagree := h.agree
  have hnodup : (r.leaders s).tree.Nodup := hagree.nodup.2 .leader s
  have hperm : (r.leaders s).tree.Perm (r.tree.filter (RegionInfo.leaderOn s)) := by
    refine (perm_ext_iff_of_nodup hnodup (hagree.nodup.1.filter _)).mpr fun x => ?_
    rw [hagree.leaders, mem_filter]
    refine and_congr_right fun _ => ?_
    unfold RegionInfo.leaderOn
    cases x.leader <;> simp
  rw [countP_eq_length_filter]
  exact hperm.length_eq

theorem Inv.setRegion_leader (h : r.Inv) (hregion : region ∈ r.tree)
    (hwf : region'.WellFormed) (hid : region'.id = region.id)
    (hstart : region'.startKey = region.startKey) (hend : region'.endKey = region.endKey) :
    ∃ r' overlaps, r.setRegion region' = .ok (r', overlaps) ∧ r'.Inv ∧
      r'.tree.Perm (region' :: r.tree.erase region) := by
  obtain ⟨r', overlaps, hset, hinv, -, -, htree, -⟩ := h.setRegion hwf
  have hnodup : r.tree.Nodup := h.apart.sorted.nodup
  -- Another region has another id, and its range does not meet that of the region.
  have hother : ∀ y ∈ r.tree, (y.id ≠ region'.id ∧ ¬ region'.Meets y ↔ y ≠ region) := by
    intro y hy
    constructor
    · rintro ⟨hne, -⟩ rfl
      exact hne hid.symm
    · intro hne
      refine ⟨fun heq => hne ?_, fun hmeets => hne ?_⟩
      · have hget := (h.indexed.get y.id y).mpr ⟨hy, rfl⟩
        have hget' := (h.indexed.get y.id region).mpr ⟨hregion, by rw [heq, hid]⟩
        exact Option.some.inj (hget.symm.trans hget')
      · have hmeets' : region.Meets y := by
          obtain ⟨key, hcovers, hcovers'⟩ := hmeets
          refine ⟨key, ?_, hcovers'⟩
          rw [← RegionInfo.contains_iff] at hcovers ⊢
          simpa [RegionInfo.contains, hstart, hend] using hcovers
        exact (h.apart.eq_of_meets region hregion y hy hmeets').symm
  have hnotMem : region' ∉ r.tree.erase region := by
    intro hmem
    obtain ⟨hne, hmem⟩ := hnodup.mem_erase_iff.mp hmem
    exact ((hother region' hmem).mpr hne).1 rfl
  refine ⟨r', overlaps, hset, hinv, ?_⟩
  refine (perm_ext_iff_of_nodup hinv.apart.sorted.nodup
    (nodup_cons.mpr ⟨hnotMem, hnodup.erase region⟩)).mpr fun y => ?_
  rw [htree, mem_cons, hnodup.mem_erase_iff]
  refine or_congr_right ?_
  constructor
  · rintro ⟨hy, hne⟩
    exact ⟨(hother y hy).mp hne, hy⟩
  · rintro ⟨hne, hy⟩
    exact ⟨hy, (hother y hy).mpr hne⟩

theorem Inv.moves (h : r.Inv) (h' : r'.Inv) (hregion : region ∈ r.tree)
    (htree : r'.tree.Perm (region' :: r.tree.erase region)) {leader leader' : Peer}
    (hleader : region.leader = some leader) (hleader' : region'.leader = some leader')
    (hne : leader.storeId ≠ leader'.storeId) :
    Balancing.Moves r.getStoreLeaderCount r'.getStoreLeaderCount leader.storeId
      leader'.storeId := by
  have hcount : ∀ s, r.getStoreLeaderCount s =
      (r.tree.erase region).countP (RegionInfo.leaderOn s) +
        if leader.storeId = s then 1 else 0 := by
    intro s
    rw [h.getStoreLeaderCount_eq, (perm_cons_erase hregion).countP_eq, countP_cons]
    simp [RegionInfo.leaderOn, hleader]
  have hcount' : ∀ s, r'.getStoreLeaderCount s =
      (r.tree.erase region).countP (RegionInfo.leaderOn s) +
        if leader'.storeId = s then 1 else 0 := by
    intro s
    rw [h'.getStoreLeaderCount_eq, htree.countP_eq, countP_cons]
    simp [RegionInfo.leaderOn, hleader']
  refine ⟨?_, ?_, ?_⟩
  · rw [hcount, hcount', if_pos rfl, if_neg hne.symm]
  · rw [hcount, hcount', if_pos rfl, if_neg hne]
  · intro s hs hs'
    rw [hcount, hcount', if_neg hs.symm, if_neg hs'.symm]

end RegionsInfo

namespace BalanceLeader

def carryOut (c : RaftCluster) (op : Operator) : Go RaftCluster := do
  let region ← Go.deref (c.regions.getRegion op.regionId)
  let region := region.executeAll op.steps
  let (regions, _) ← c.regions.setRegion region
  return region.stores.foldl RaftCluster.updateStoreStatusLocked { c with regions := regions }

variable {c c' : RaftCluster} {op : Operator} {region : RegionInfo} {source target : StoreInfo}

theorem Consistent.leaderCount_eq (hc : Consistent c) {store : StoreInfo}
    (h : c.stores.getStore store.id = some store) :
    store.leaderCount = c.regions.getStoreLeaderCount store.id :=
  hc.leaderCount store (StoresInfo.mem_getStores.mpr h)

theorem Balances.load_le (hc : Consistent c) (h : Balances c op region source target) :
    c.regions.getStoreLeaderCount target.id + 10 ≤ c.regions.getStoreLeaderCount source.id := by
  have hsource := hc.leaderCount_eq h.getSource
  have htarget := hc.leaderCount_eq h.getTarget
  have hcount := h.leaderCount
  omega

theorem Balances.carryOut_spec (hc : Consistent c) (h : Balances c op region source target) :
    ∃ c', carryOut c op = .ok c' ∧ Consistent c' ∧ c'.storeIds = c.storeIds ∧
      Balancing.Moves c.regions.getStoreLeaderCount c'.regions.getStoreLeaderCount source.id
        target.id := by
  obtain ⟨hregion, -⟩ := (hc.regions.agree.regions op.regionId region).mp h.getRegion
  have hwf := hc.regions.indexed.wellFormed region hregion
  obtain ⟨leader, hleader, hsource⟩ := h.leader
  obtain ⟨peer, hpeer, -, htarget⟩ := h.follower
  -- The region with its new leader.
  have hexecute : region.executeAll op.steps = { region with leader := some peer } := by
    have hfind : region.getStorePeer target.id = some peer :=
      (RegionInfo.getStorePeer_eq_some hwf.stores).mpr ⟨hpeer, htarget⟩
    rw [h.steps, ← hfind]
    rfl
  have hwf' : RegionInfo.WellFormed { region with leader := some peer } :=
    ⟨hwf.range, hwf.ids, hwf.id_ne_zero, hwf.stores, by simpa using hpeer, hwf.pending,
      hwf.learners⟩
  obtain ⟨r', overlaps, hset, hinv, htree⟩ := hc.regions.setRegion_leader hregion hwf' rfl rfl rfl
  have hne : leader.storeId ≠ peer.storeId := by
    have hload := h.load_le hc
    rw [hsource, htarget]
    intro heq
    rw [heq] at hload
    omega
  have hmoves := hc.regions.moves hinv hregion htree hleader rfl hne
  obtain ⟨hregions, hstores⟩ :=
    RaftCluster.updateAll_spec region.stores { c with regions := r' }
  refine ⟨region.stores.foldl RaftCluster.updateStoreStatusLocked { c with regions := r' },
    ?_, ⟨?_, ?_⟩, ?_, ?_⟩
  · unfold carryOut
    rw [h.getRegion]
    simp only [Go.deref, Go.ok_bind, hexecute, hset]
    rfl
  · rw [hregions]
    exact hinv
  · intro store hstore
    rw [StoresInfo.mem_getStores, hstores] at hstore
    rw [hregions]
    obtain ⟨before, hbefore, hafter⟩ := Option.map_eq_some_iff.mp hstore
    split_ifs at hafter with hmem
    · exact congrArg StoreInfo.leaderCount hafter.symm
    · -- The leaders of a store without a peer of the region are those that were there.
      subst hafter
      have hleaderMem : leader ∈ region.peers := hwf.leader leader hleader
      have hother := hmoves.other before.id
        (fun heq => hmem (RegionInfo.mem_stores.mpr ⟨leader, hleaderMem, heq.symm⟩))
        (fun heq => hmem (RegionInfo.mem_stores.mpr ⟨peer, hpeer, heq.symm⟩))
      rw [hc.leaderCount_eq hbefore, ← hother]
  · ext s
    rw [RaftCluster.mem_storeIds, RaftCluster.mem_storeIds, hstores]
    simp
  · rw [hregions, ← hsource, ← htarget]
    exact hmoves

def afterCall (c : RaftCluster) : Option Operator → Go RaftCluster
  | none => .ok c
  | some op => carryOut c op

/-- A sequence of calls of `Schedule`. Each operator is carried out before the next call, and
nothing changes besides but the time. -/
structure Calls (c : ℕ → RaftCluster) (call : ℕ → Call) : Prop where
  fits : ∀ n, (call n).Fits (c n)
  next : ∀ n, ∃ after, afterCall (c n) (schedule (c n) (call n)) = .ok after ∧
    c (n + 1) = { after with now := (c (n + 1)).now }

def TakesBack (op op' : Operator) : Prop :=
  op'.regionId = op.regionId ∧ ∃ s t, op.steps = [.transferLeader s t] ∧
    op'.steps = [.transferLeader t s]

def potential (c : RaftCluster) : ℕ :=
  Balancing.potential c.storeIds c.regions.getStoreLeaderCount

theorem Consistent.withNow (hc : Consistent c) (now : ℤ) : Consistent { c with now := now } :=
  ⟨hc.regions, hc.leaderCount⟩

variable {clusters : ℕ → RaftCluster} {calls : ℕ → Call}

section

variable (h : Calls clusters calls)
include h

theorem Calls.next_of_none {n : ℕ} (hnone : schedule (clusters n) (calls n) = none) :
    clusters (n + 1) = { clusters n with now := (clusters (n + 1)).now } := by
  obtain ⟨after, hafter, hnext⟩ := h.next n
  rw [hnone] at hafter
  obtain rfl := Except.ok.inj hafter
  exact hnext

theorem Calls.next_of_some {n : ℕ} (hc : Consistent (clusters n))
    (hop : schedule (clusters n) (calls n) = some op) :
    ∃ region source target, Balances (clusters n) op region source target ∧
      Consistent (clusters (n + 1)) ∧ (clusters (n + 1)).storeIds = (clusters n).storeIds ∧
      Balancing.Moves (clusters n).regions.getStoreLeaderCount
        (clusters (n + 1)).regions.getStoreLeaderCount source.id target.id := by
  obtain ⟨region, source, target, hbalances⟩ := balances_of_schedule hc (h.fits n) hop
  obtain ⟨c', hc', hconsistent, hids, hmoves⟩ := hbalances.carryOut_spec hc
  obtain ⟨after, hafter, hnext⟩ := h.next n
  rw [hop] at hafter
  obtain rfl : c' = after := Except.ok.inj (hc'.symm.trans hafter)
  refine ⟨region, source, target, hbalances, ?_⟩
  rw [hnext]
  exact ⟨hconsistent.withNow _, hids, hmoves⟩

theorem Calls.consistent (hstart : Consistent (clusters 0)) (n : ℕ) : Consistent (clusters n) := by
  induction n with
  | zero => exact hstart
  | succ n ih =>
    cases hop : schedule (clusters n) (calls n) with
    | none =>
      rw [h.next_of_none hop]
      exact ih.withNow _
    | some op =>
      obtain ⟨-, -, -, -, hconsistent, -⟩ := h.next_of_some ih hop
      exact hconsistent

theorem Calls.potential_next (hstart : Consistent (clusters 0)) (n : ℕ) :
    potential (clusters (n + 1)) ≤ potential (clusters n) ∧
      (schedule (clusters n) (calls n) ≠ none →
        potential (clusters (n + 1)) + 18 ≤ potential (clusters n)) := by
  have hc := h.consistent hstart n
  cases hop : schedule (clusters n) (calls n) with
  | none =>
    rw [h.next_of_none hop]
    exact ⟨le_rfl, fun hne => absurd rfl hne⟩
  | some op =>
    obtain ⟨region, source, target, hbalances, -, hids, hmoves⟩ := h.next_of_some hc hop
    have hsource : source.id ∈ (clusters n).storeIds :=
      RaftCluster.mem_storeIds.mpr (by simp [hbalances.getSource])
    have htarget : target.id ∈ (clusters n).storeIds :=
      RaftCluster.mem_storeIds.mpr (by simp [hbalances.getTarget])
    have hfalls : potential (clusters (n + 1)) + 2 * 9 ≤ potential (clusters n) := by
      unfold potential
      rw [hids]
      exact hmoves.potential_add_le hsource htarget (hbalances.load_le hc)
    exact ⟨by omega, fun _ => hfalls⟩

theorem Calls.load_eq {m n : ℕ} (hmn : m ≤ n)
    (hnone : ∀ k, m ≤ k → k < n → schedule (clusters k) (calls k) = none) :
    (clusters n).regions = (clusters m).regions := by
  induction n, hmn using Nat.le_induction with
  | base => rfl
  | succ n hmn ih =>
    have hsame := h.next_of_none (hnone n hmn (Nat.lt_succ_self n))
    rw [hsame]
    exact ih fun k hmk hkn => hnone k hmk (Nat.lt_succ_of_lt hkn)

theorem Calls.not_takesBack (hstart : Consistent (clusters 0)) {m n : ℕ}
    {op op' : Operator} (hmn : m < n) (hop : schedule (clusters m) (calls m) = some op)
    (hop' : schedule (clusters n) (calls n) = some op')
    (hnone : ∀ k, m < k → k < n → schedule (clusters k) (calls k) = none) : ¬ TakesBack op op' := by
  rintro ⟨-, s, t, hsteps, hsteps'⟩
  have hc := h.consistent hstart m
  obtain ⟨region, source, target, hbalances, -, -, hmoves⟩ := h.next_of_some hc hop
  obtain ⟨region', source', target', hbalances', -⟩ :=
    h.next_of_some (h.consistent hstart n) hop'
  -- The difference that the second operator would need is not there after the first one.
  have hlt := hmoves.lt_add (hbalances.load_le hc) (by decide)
  have hle := hbalances'.load_le (h.consistent hstart n)
  have hsame : (clusters n).regions = (clusters (m + 1)).regions := h.load_eq hmn hnone
  rw [hsame] at hle
  obtain ⟨rfl, rfl⟩ : source.id = s ∧ target.id = t := by
    simpa [hbalances.steps] using hsteps
  obtain ⟨hs', ht'⟩ : source'.id = target.id ∧ target'.id = source.id := by
    simpa [hbalances'.steps] using hsteps'
  rw [hs', ht'] at hle
  omega

end

/-- Every operator of `Schedule` moves a leader to a store with a follower that has fewer leaders by
ten at least. In every sequence of calls there are only finitely many operators, and none takes a
leader straight back. -/
theorem schedule_converges :
    (∀ c call op, Consistent c → call.Fits c → schedule c call = some op →
      (∃ region source target, Balances c op region source target) ∧
        ∃ c', carryOut c op = .ok c' ∧ Consistent c') ∧
    ∀ clusters calls, Consistent (clusters 0) → Calls clusters calls →
      {n | schedule (clusters n) (calls n) ≠ none}.Finite ∧
        ∀ m n op op', m < n → schedule (clusters m) (calls m) = some op →
          schedule (clusters n) (calls n) = some op' →
          (∀ k, m < k → k < n → schedule (clusters k) (calls k) = none) → ¬ TakesBack op op' := by
  constructor
  · intro c call op hc hcall hop
    obtain ⟨region, source, target, hbalances⟩ := balances_of_schedule hc hcall hop
    obtain ⟨c', hc', hconsistent, -, -⟩ := hbalances.carryOut_spec hc
    exact ⟨⟨region, source, target, hbalances⟩, c', hc', hconsistent⟩
  · intro clusters calls hstart h
    refine ⟨?_, fun m n op op' hmn hop hop' hnone => h.not_takesBack hstart hmn hop hop' hnone⟩
    apply Balancing.finite_of_descends (Φ := fun n => potential (clusters n))
    · exact fun n => (h.potential_next hstart n).1
    · intro n hne
      have hfalls := (h.potential_next hstart n).2 hne
      omega

def plainDraw : Draw where
  intn _ _ := 0
  followerIds region := region.getFollowers.keys
  sort := List.insertionSort fun a b => a.leaderCount ≤ b.leaderCount

def plainCall (c : RaftCluster) : Call where
  stores := c.stores.getStores
  sortSources := List.insertionSort fun a b => a.leaderCount ≥ b.leaderCount
  sortTargets := List.insertionSort fun a b => a.leaderCount ≤ b.leaderCount
  out _ _ := plainDraw
  into _ _ := plainDraw

theorem sorts_insertionSort {r : StoreInfo → StoreInfo → Prop} [DecidableRel r] [Std.Total r]
    [IsTrans StoreInfo r] {less : StoreInfo → StoreInfo → Bool}
    (hless : ∀ a b, r a b → less b a = false) : Sorts less (List.insertionSort r) := by
  intro stores
  refine ⟨perm_insertionSort r stores, ?_⟩
  exact (pairwise_insertionSort r stores).imp fun {a b} => hless a b

instance : Std.Total fun a b : StoreInfo => a.leaderCount ≤ b.leaderCount :=
  ⟨fun a b => le_total a.leaderCount b.leaderCount⟩

instance : IsTrans StoreInfo fun a b => a.leaderCount ≤ b.leaderCount :=
  ⟨fun _ _ _ => le_trans⟩

instance : Std.Total fun a b : StoreInfo => a.leaderCount ≥ b.leaderCount :=
  ⟨fun a b => le_total b.leaderCount a.leaderCount⟩

instance : IsTrans StoreInfo fun a b => a.leaderCount ≥ b.leaderCount :=
  ⟨fun _ _ _ => ge_trans⟩

theorem plainDraw_fits : plainDraw.Fits where
  intn _ n hn := hn
  followerIds _ := .rfl
  sort := sorts_insertionSort fun a b hle => by simpa [fewerLeaders] using hle

theorem plainCall_fits (c : RaftCluster) : (plainCall c).Fits c where
  stores := .rfl
  sortSources := sorts_insertionSort fun a b hle => by simpa [moreLeaders] using hle
  sortTargets := sorts_insertionSort fun a b hle => by simpa [fewerLeaders] using hle
  out _ _ := plainDraw_fits
  into _ _ := plainDraw_fits

def plainNext (c : RaftCluster) : RaftCluster :=
  ((afterCall c (schedule c (plainCall c))).toOption).getD c

theorem plainNext_spec {c : RaftCluster} (hc : Consistent c) :
    afterCall c (schedule c (plainCall c)) = .ok (plainNext c) ∧ Consistent (plainNext c) := by
  unfold plainNext
  cases hop : schedule c (plainCall c) with
  | none => exact ⟨rfl, hc⟩
  | some op =>
    obtain ⟨region, source, target, hbalances⟩ :=
      balances_of_schedule hc (plainCall_fits c) hop
    obtain ⟨c', hc', hconsistent, -, -⟩ := hbalances.carryOut_spec hc
    rw [afterCall, hc']
    exact ⟨rfl, hconsistent⟩

theorem calls_plain {c : RaftCluster} (hc : Consistent c) :
    Calls (fun n => plainNext^[n] c) fun n => plainCall (plainNext^[n] c) := by
  have hconsistent : ∀ n, Consistent (plainNext^[n] c) := by
    intro n
    induction n with
    | zero => exact hc
    | succ n ih =>
      rw [Function.iterate_succ_apply']
      exact (plainNext_spec ih).2
  refine ⟨fun n => plainCall_fits _, fun n => ?_⟩
  refine ⟨plainNext (plainNext^[n] c), (plainNext_spec (hconsistent n)).1, ?_⟩
  simp only [Function.iterate_succ_apply']

def tenRegions : List RegionEvent :=
  (List.range 10).map fun i => .set {
    id := i + 1
    startKey := [UInt8.ofNat i]
    endKey := [UInt8.ofNat (i + 1)]
    peers := [⟨2 * i + 1, 1⟩, ⟨2 * i + 2, 2⟩]
    leader := some ⟨2 * i + 1, 1⟩ }

def tenLeaders : RaftCluster where
  stores := (StoresInfo.newStoresInfo.setStore { id := 1, leaderCount := 10 }
    Nat.one_ne_zero).setStore { id := 2 } two_ne_zero
  regions := (RegionsInfo.machine.run {} tenRegions).getD {}

theorem consistent_tenLeaders : Consistent tenLeaders := by
  have hsome : (RegionsInfo.machine.run {} tenRegions).isSome = true := by decide +kernel
  obtain ⟨r, hr⟩ := Option.isSome_iff_exists.mp hsome
  have hinv : r.Inv := Machine.run_invariant (fun _ _ _ h hstep => h.step hstep)
    RegionsInfo.inv_init hr
  refine ⟨?_, by decide +kernel⟩
  have hregions : tenLeaders.regions = r := by
    unfold tenLeaders
    rw [hr]
    rfl
  rw [hregions]
  exact hinv

theorem schedule_converges_tenLeaders :
    (∃ op region source target, schedule tenLeaders (plainCall tenLeaders) = some op ∧
      Balances tenLeaders op region source target) ∧
    {n | schedule (plainNext^[n] tenLeaders) (plainCall (plainNext^[n] tenLeaders)) ≠
      none}.Finite := by
  have hconsistent := consistent_tenLeaders
  have hsome : (schedule tenLeaders (plainCall tenLeaders)).isSome = true := by decide +kernel
  obtain ⟨op, hop⟩ := Option.isSome_iff_exists.mp hsome
  obtain ⟨⟨region, source, target, hbalances⟩, -⟩ :=
    schedule_converges.1 _ _ op hconsistent (plainCall_fits tenLeaders) hop
  exact ⟨⟨op, region, source, target, hop, hbalances⟩,
    (schedule_converges.2 _ _ hconsistent (calls_plain hconsistent)).1⟩

end BalanceLeader

end TinyKV
