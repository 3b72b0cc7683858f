import TinyKV.GoMap
import TinyKV.Scheduler.RegionTree

/-!
# The indexes of the regions agree

`RegionsInfo` keeps its regions in the tree, the map, and the sub-trees of the leaders, the
followers and the pending peers of every store.
-/

namespace TinyKV

open List

namespace RegionMap

variable {rm : RegionMap} {region : RegionInfo}

def Sized (rm : RegionMap) : Prop :=
  rm.totalSize = int64 (GoMap.sum RegionInfo.approximateSize rm.m)

theorem get_put (id : ℕ) :
    (rm.put region).get id = if id = region.id then some region else rm.get id := by
  unfold get put
  split_ifs with h
  · subst h
    simp
  · simp [AList.lookup_insert_ne h]

theorem get_delete (id id' : ℕ) :
    (rm.delete id).get id' = if id' = id then none else rm.get id' := by
  unfold get delete
  split
  · split_ifs with h
    · subst h
      simp
    · simp [AList.lookup_erase_ne h]
  · rename_i hnone
    split_ifs with h
    · subst h
      exact hnone
    · rfl

theorem Sized.put (h : rm.Sized) : (rm.put region).Sized := by
  unfold Sized RegionMap.put at *
  simp only [GoMap.sum_insert, GoMap.sum_erase]
  cases hold : rm.m.lookup region.id with
  | none => simp [h, int64_add_int64]
  | some old => simp [h, int64_add_int64, int64_sub_int64]

theorem Sized.delete (h : rm.Sized) (id : ℕ) : (rm.delete id).Sized := by
  unfold Sized RegionMap.delete at *
  cases hold : rm.m.lookup id with
  | none => exact h
  | some old => simp [h, hold, GoMap.sum_erase, int64_sub_int64]

end RegionMap

def RegionInfo.placements (region : RegionInfo) : List (Role × ℕ) :=
  (region.getVoters.map fun peer =>
    (if peer.id = region.leaderId then Role.leader else Role.follower, peer.storeId)) ++
  (region.learners.map fun peer => (Role.learner, peer.storeId)) ++
  region.pendingPeers.map fun peer => (Role.pending, peer.storeId)

def RegionInfo.Weightless (region : RegionInfo) : Prop :=
  region.approximateSize = 0 ∨ region.peers = []

instance (region : RegionInfo) : Decidable region.Weightless := inferInstanceAs (Decidable (_ ∨ _))

theorem RegionInfo.WellFormed.mem_stores {x : RegionInfo} (h : x.WellFormed) {role : Role} {s : ℕ}
    (hmem : (role, s) ∈ x.placements) : s ∈ x.peers.map Peer.storeId := by
  simp only [RegionInfo.placements, RegionInfo.getVoters, h.learners, map_nil, append_nil,
    mem_append, mem_map, Prod.mk.injEq] at hmem
  rcases hmem with ⟨p, hp, -, rfl⟩ | ⟨p, hp, -, rfl⟩
  · exact mem_map_of_mem hp
  · exact mem_map_of_mem (h.pending p hp)

namespace RegionsInfo

variable {r : RegionsInfo} {region x : RegionInfo}

theorem subTrees_modify (role role' : Role) (s s' : ℕ) (f : RegionSubTree → RegionSubTree) :
    (r.modify role s f).subTrees role' s' =
      if role' = role ∧ s' = s then f (r.subTrees role s) else r.subTrees role' s' := by
  unfold modify
  by_cases hrole : role' = role
  · subst hrole
    by_cases hs : s' = s
    · subst hs
      simp
    · simp [hs]
  · simp [hrole]

theorem addPeers_eq : r.addPeers region =
    region.placements.foldl (fun r p => r.modify p.1 p.2 (·.update region)) r := by
  have hvoters : ∀ (r : RegionsInfo) (peer : Peer),
      (if peer.id = region.leaderId then r.modify .leader peer.storeId (·.update region)
        else r.modify .follower peer.storeId (·.update region)) =
      r.modify (if peer.id = region.leaderId then .leader else .follower) peer.storeId
        (·.update region) := by
    intro r peer
    split_ifs <;> rfl
  simp only [addPeers, RegionInfo.placements, foldl_append, foldl_map, hvoters]

theorem foldl_modify_preserves {P : RegionSubTree → Prop} {f : RegionSubTree → RegionSubTree}
    (hf : ∀ rst, P rst → P (f rst)) (ps : List (Role × ℕ)) (r : RegionsInfo)
    (h : ∀ role s, P (r.subTrees role s)) (role : Role) (s : ℕ) :
    P ((ps.foldl (fun r p => r.modify p.1 p.2 f) r).subTrees role s) := by
  induction ps generalizing r with
  | nil => exact h role s
  | cons p ps ih =>
    refine ih (r.modify p.1 p.2 f) fun role s => ?_
    rw [subTrees_modify]
    split_ifs
    · exact hf _ (h p.1 p.2)
    · exact h role s

theorem foldl_update_spec (hregion : (region.startKey : WithTop Bytes) < region.stop)
    (ps : List (Role × ℕ)) (r : RegionsInfo) (happart : ∀ role s, (r.subTrees role s).tree.Apart)
    (hfree : ∀ role s, ∀ x ∈ (r.subTrees role s).tree, region.Meets x → x = region) :
    let r' := ps.foldl (fun r p => r.modify p.1 p.2 (·.update region)) r
    r'.tree = r.tree ∧ r'.regions = r.regions ∧ ∀ role s, (r'.subTrees role s).tree.Apart ∧
      ∀ x, x ∈ (r'.subTrees role s).tree ↔
        x ∈ (r.subTrees role s).tree ∨ x = region ∧ (role, s) ∈ ps := by
  induction ps generalizing r with
  | nil => simpa using happart
  | cons p ps ih =>
    obtain ⟨role₀, s₀⟩ := p
    have hspec := RegionSubTree.update_spec (happart role₀ s₀) hregion (hfree role₀ s₀)
    -- The sub-trees after the first step.
    have hstep : ∀ role s, ((r.modify role₀ s₀ (·.update region)).subTrees role s).tree.Apart ∧
        ∀ x, x ∈ ((r.modify role₀ s₀ (·.update region)).subTrees role s).tree ↔
          x ∈ (r.subTrees role s).tree ∨ x = region ∧ (role, s) = (role₀, s₀) := by
      intro role s
      rw [subTrees_modify]
      split_ifs with heq
      · obtain ⟨rfl, rfl⟩ := heq
        exact ⟨hspec.1, fun x => by rw [hspec.2, or_comm]; simp⟩
      · refine ⟨happart role s, fun x => ?_⟩
        simp [heq]
    obtain ⟨htree, hregions, hsub⟩ := ih (r.modify role₀ s₀ (·.update region))
      (fun role s => (hstep role s).1) fun role s x hx hmeets => by
        rcases ((hstep role s).2 x).mp hx with hx | hx
        · exact hfree role s x hx hmeets
        · exact hx.1
    refine ⟨htree, hregions, fun role s => ⟨(hsub role s).1, fun x => ?_⟩⟩
    rw [foldl_cons, (hsub role s).2, (hstep role s).2, mem_cons]
    tauto

def removeAt (r : RegionsInfo) (storeId : ℕ) (region : RegionInfo) : RegionsInfo :=
  (((r.modify .leader storeId (·.remove region)).modify .follower storeId (·.remove region)).modify
    .learner storeId (·.remove region)).modify .pending storeId (·.remove region)

theorem subTrees_removeAt (s : ℕ) (role' : Role) (s' : ℕ) :
    (r.removeAt s region).subTrees role' s' =
      if s' = s then (r.subTrees role' s').remove region else r.subTrees role' s' := by
  unfold removeAt
  simp only [subTrees_modify]
  by_cases hs : s' = s
  · subst hs
    cases role' <;> simp
  · simp [hs]

theorem foldl_remove_spec (hregion : (region.startKey : WithTop Bytes) < region.stop)
    (peers : List Peer) (r : RegionsInfo) (happart : ∀ role s, (r.subTrees role s).tree.Apart)
    (hfree : ∀ role s, ∀ x ∈ (r.subTrees role s).tree, region.Meets x → x = region) :
    let r' := peers.foldl (fun r peer => r.removeAt peer.storeId region) r
    r'.tree = r.tree ∧ r'.regions = r.regions ∧ ∀ role s, (r'.subTrees role s).tree.Apart ∧
      ∀ x, x ∈ (r'.subTrees role s).tree ↔
        x ∈ (r.subTrees role s).tree ∧ ¬ (x = region ∧ s ∈ peers.map Peer.storeId) := by
  induction peers generalizing r with
  | nil => simpa using happart
  | cons peer peers ih =>
    have hstep : ∀ role s, ((r.removeAt peer.storeId region).subTrees role s).tree.Apart ∧
        ∀ x, x ∈ ((r.removeAt peer.storeId region).subTrees role s).tree ↔
          x ∈ (r.subTrees role s).tree ∧ ¬ (x = region ∧ s = peer.storeId) := by
      intro role s
      have hspec := RegionSubTree.remove_spec (happart role s) hregion (hfree role s)
      rw [subTrees_removeAt]
      split_ifs with heq
      · exact ⟨hspec.1, fun x => by rw [hspec.2]; simp [heq]⟩
      · exact ⟨happart role s, fun x => by simp [heq]⟩
    obtain ⟨htree, hregions, hsub⟩ := ih (r.removeAt peer.storeId region)
      (fun role s => (hstep role s).1) fun role s x hx hmeets =>
        hfree role s x (((hstep role s).2 x).mp hx).1 hmeets
    refine ⟨htree, hregions, fun role s => ⟨(hsub role s).1, fun x => ?_⟩⟩
    rw [foldl_cons, (hsub role s).2, (hstep role s).2, map_cons, mem_cons]
    tauto

theorem foldl_removeAt_preserves {P : RegionSubTree → Prop}
    (hf : ∀ rst, P rst → P (rst.remove region)) (peers : List Peer) (r : RegionsInfo)
    (h : ∀ role s, P (r.subTrees role s)) (role : Role) (s : ℕ) :
    P ((peers.foldl (fun r peer => r.removeAt peer.storeId region) r).subTrees role s) := by
  induction peers generalizing r with
  | nil => exact h role s
  | cons peer peers ih =>
    refine ih (r.removeAt peer.storeId region) fun role s => ?_
    rw [subTrees_removeAt]
    split_ifs
    · exact hf _ (h role s)
    · exact h role s

def Sized (r : RegionsInfo) : Prop := ∀ role s, (r.subTrees role s).Sized

/-- The map and the sub-trees hold the regions of the set, whose ranges are disjoint. -/
structure Indexed (r : RegionsInfo) (S : RegionInfo → Prop) : Prop where
  wellFormed : ∀ x, S x → x.WellFormed
  eq_of_meets : ∀ x y, S x → S y → x.Meets y → x = y
  get : ∀ id x, r.regions.get id = some x ↔ S x ∧ x.id = id
  apart : ∀ role s, (r.subTrees role s).tree.Apart
  mem : ∀ role s x, x ∈ (r.subTrees role s).tree ↔ S x ∧ (role, s) ∈ x.placements
  sized : r.regions.Sized

variable {S : RegionInfo → Prop}

theorem Indexed.congr {S' : RegionInfo → Prop} (h : r.Indexed S) (hS : ∀ x, S x ↔ S' x) :
    r.Indexed S' := by
  obtain rfl : S = S' := funext fun x => propext (hS x)
  exact h

theorem Indexed.eq_of_mem (h : r.Indexed S) (hx : S x) (role : Role) (s : ℕ) :
    ∀ y ∈ (r.subTrees role s).tree, x.Meets y → y = x := fun y hy hmeets =>
  (h.eq_of_meets x y hx ((h.mem role s y).mp hy).1 hmeets).symm

theorem Indexed.removeRegion (h : r.Indexed S) (hx : S x) :
    (r.removeRegion x).Indexed (fun y => S y ∧ y ≠ x) ∧
      (r.removeRegion x).tree = r.tree.remove x ∧
      (x.Weightless → r.Sized → (r.removeRegion x).Sized) := by
  have hwf := h.wellFormed x hx
  obtain ⟨htree, hregions, hsub⟩ := foldl_remove_spec hwf.nonempty x.peers
    { r with tree := r.tree.remove x, regions := r.regions.delete x.id } h.apart (h.eq_of_mem hx)
  refine ⟨⟨fun y hy => h.wellFormed y hy.1, fun y z hy hz => h.eq_of_meets y z hy.1 hz.1,
    fun id y => ?_, fun role s => (hsub role s).1, fun role s y => ?_, ?_⟩, htree, ?_⟩
  · rw [RegionsInfo.removeRegion]
    refine (congrArg (fun m => RegionMap.get m id = some y) hregions).to_iff.trans ?_
    rw [RegionMap.get_delete]
    split_ifs with hid
    · -- No other region has the id.
      have hget : r.regions.get id = some x := (h.get id x).mpr ⟨hx, hid.symm⟩
      simp only [false_iff]
      rintro ⟨⟨hy, hne⟩, hyid⟩
      have hget' := (h.get id y).mpr ⟨hy, hyid⟩
      exact hne (Option.some.inj (hget'.symm.trans hget))
    · rw [h.get]
      exact ⟨fun hy => ⟨⟨hy.1, fun heq => hid (heq ▸ hy.2.symm)⟩, hy.2⟩, fun hy => ⟨hy.1.1, hy.2⟩⟩
  · refine ((hsub role s).2 y).trans ?_
    rw [h.mem]
    constructor
    · rintro ⟨⟨hy, hrole⟩, hne⟩
      exact ⟨⟨hy, fun heq => hne ⟨heq, hwf.mem_stores (heq ▸ hrole)⟩⟩, hrole⟩
    · rintro ⟨⟨hy, hne⟩, hrole⟩
      exact ⟨⟨hy, hrole⟩, fun heq => hne heq.1⟩
  · rw [RegionsInfo.removeRegion]
    exact (congrArg RegionMap.Sized hregions).mpr (h.sized.delete x.id)
  · rintro (hzero | hpeers) hsized
    · -- The loop keeps what `remove` needs.
      have hP := foldl_removeAt_preserves (P := fun rst => rst.tree.Apart ∧
          (∀ y ∈ rst.tree, x.Meets y → y = x) ∧ rst.Sized)
        (fun rst ⟨happart, hfree, hsized⟩ =>
          have hspec := RegionSubTree.remove_spec happart hwf.nonempty hfree
          ⟨hspec.1, fun y hy => hfree y ((hspec.2 y).mp hy).1,
            hsized.remove happart hwf.nonempty hfree hzero⟩)
        x.peers { r with tree := r.tree.remove x, regions := r.regions.delete x.id }
        fun role s => ⟨h.apart role s, h.eq_of_mem hx role s, hsized role s⟩
      exact fun role s => (hP role s).2.2
    · intro role s
      rw [RegionsInfo.removeRegion, hpeers]
      exact hsized role s

theorem Indexed.addPeers (h : r.Indexed S) (hregion : region.WellFormed)
    (hfree : ∀ y, S y → ¬ region.Meets y) (hid : ∀ y, S y → y.id ≠ region.id) :
    (addPeers { r with regions := r.regions.put region } region).Indexed
        (fun y => y = region ∨ S y) ∧
      (addPeers { r with regions := r.regions.put region } region).tree = r.tree ∧
      (r.Sized → (addPeers { r with regions := r.regions.put region } region).Sized) := by
  have hfree' : ∀ role s, ∀ y ∈ (r.subTrees role s).tree, region.Meets y → y = region :=
    fun role s y hy hmeets => absurd hmeets (hfree y ((h.mem role s y).mp hy).1)
  obtain ⟨htree, hregions, hsub⟩ := foldl_update_spec hregion.nonempty region.placements
    { r with regions := r.regions.put region } h.apart hfree'
  rw [addPeers_eq]
  refine ⟨⟨?_, ?_, fun id y => ?_, fun role s => (hsub role s).1, fun role s y => ?_, ?_⟩, htree,
    fun hsized => ?_⟩
  · rintro y (rfl | hy)
    · exact hregion
    · exact h.wellFormed y hy
  · rintro y z (rfl | hy) (rfl | hz) hmeets
    · rfl
    · exact absurd hmeets (hfree z hz)
    · exact absurd hmeets.symm (hfree y hy)
    · exact h.eq_of_meets y z hy hz hmeets
  · rw [hregions, RegionMap.get_put]
    split_ifs with heq
    · subst heq
      constructor
      · intro hy
        obtain rfl := Option.some.inj hy
        exact ⟨Or.inl rfl, rfl⟩
      · rintro ⟨rfl | hy, hyid⟩
        · rfl
        · exact absurd hyid (hid y hy)
    · rw [h.get]
      constructor
      · rintro ⟨hy, hyid⟩
        exact ⟨Or.inr hy, hyid⟩
      · rintro ⟨rfl | hy, hyid⟩
        · exact absurd hyid.symm heq
        · exact ⟨hy, hyid⟩
  · rw [(hsub role s).2, h.mem]
    constructor
    · rintro (⟨hy, hrole⟩ | ⟨rfl, hrole⟩)
      · exact ⟨Or.inr hy, hrole⟩
      · exact ⟨Or.inl rfl, hrole⟩
    · rintro ⟨rfl | hy, hrole⟩
      · exact Or.inr ⟨rfl, hrole⟩
      · exact Or.inl ⟨hy, hrole⟩
  · rw [hregions]
    exact h.sized.put
  · -- The loop keeps what `update` needs.
    have hP := foldl_modify_preserves (P := fun rst => rst.tree.Apart ∧
        (∀ y ∈ rst.tree, region.Meets y → y = region) ∧ rst.Sized)
      (fun rst ⟨happart, hfree, hsized⟩ =>
        have hspec := RegionSubTree.update_spec happart hregion.nonempty hfree
        ⟨hspec.1, fun y hy hmeets => ((hspec.2 y).mp hy).elim id fun hy => hfree y hy hmeets,
          hsized.update happart hregion.nonempty hfree⟩)
      region.placements { r with regions := r.regions.put region }
      fun role s => ⟨h.apart role s, hfree' role s, hsized role s⟩
    exact fun role s => (hP role s).2.2

theorem Indexed.removeAll (overlaps : List RegionInfo) (hnodup : overlaps.Nodup)
    (hS : ∀ o ∈ overlaps, S o) (h : r.Indexed S)
    (htree : ∀ o ∈ overlaps, r.tree.remove o = r.tree) :
    ∃ r', overlaps.foldlM (fun r item => do
        let removed ← Go.deref (r.getRegion item.id)
        return r.removeRegion removed) r = .ok r' ∧
      r'.Indexed (fun y => S y ∧ y ∉ overlaps) ∧ r'.tree = r.tree ∧
      ((∀ o ∈ overlaps, o.Weightless) → r.Sized → r'.Sized) := by
  induction overlaps generalizing r S with
  | nil => exact ⟨r, rfl, h.congr (by simp), rfl, fun _ => id⟩
  | cons o overlaps ih =>
    obtain ⟨ho, hnodup⟩ := nodup_cons.mp hnodup
    have hget : r.getRegion o.id = some o := (h.get o.id o).mpr ⟨hS o mem_cons_self, rfl⟩
    obtain ⟨hindexed, htree', hsized⟩ := h.removeRegion (hS o mem_cons_self)
    rw [htree o mem_cons_self] at htree'
    obtain ⟨r', hr', hindexed', htree'', hsized'⟩ := ih hnodup
      (fun o' ho' => ⟨hS o' (mem_cons_of_mem o ho'), fun heq => ho (heq ▸ ho')⟩) hindexed
      fun o' ho' => by rw [htree']; exact htree o' (mem_cons_of_mem o ho')
    refine ⟨r', ?_, hindexed'.congr fun y => ?_, htree''.trans htree', fun hweight h => ?_⟩
    · rw [foldlM_cons, hget]
      exact hr'
    · rw [mem_cons, not_or, and_assoc]
    · exact hsized' (fun o' ho' => hweight o' (mem_cons_of_mem o ho'))
        (hsized (hweight o mem_cons_self) h)

/-- All indexes hold the regions of the tree. -/
structure Inv (r : RegionsInfo) : Prop where
  apart : r.tree.Apart
  indexed : r.Indexed (· ∈ r.tree)

theorem inv_init : Inv {} := by
  refine ⟨RangeList.apart_nil,
    ⟨by simp, by simp, by simp [RegionMap.get], fun _ _ => ?_, by simp, ?_⟩⟩
  · exact RangeList.apart_nil
  · simp [RegionMap.Sized, GoMap.sum, int64]

theorem Inv.removeRegion (h : r.Inv) (hx : x ∈ r.tree) :
    (r.removeRegion x).Inv ∧ (∀ y, y ∈ (r.removeRegion x).tree ↔ y ∈ r.tree ∧ y ≠ x) ∧
      (x.Weightless → r.Sized → (r.removeRegion x).Sized) := by
  obtain ⟨hindexed, htree, hsized⟩ := h.indexed.removeRegion hx
  have hmem : ∀ y, y ∈ (r.removeRegion x).tree ↔ y ∈ r.tree ∧ y ≠ x := fun y => by
    rw [htree]
    exact h.apart.mem_remove hx
  refine ⟨⟨?_, hindexed.congr fun y => (hmem y).symm⟩, hmem, hsized⟩
  refine h.apart.subset ?_ fun y hy => ((hmem y).mp hy).1
  rw [htree]
  exact RegionTree.sorted_remove h.apart.sorted

theorem Inv.addRegion (h : r.Inv) (hregion : region.WellFormed)
    (hid : ∀ y ∈ r.tree, y.id ≠ region.id) :
    ∃ r', r.addRegion region = .ok (r', r.tree.getOverlaps region) ∧ r'.Inv ∧
      (∀ y, y ∈ r'.tree ↔ y = region ∨ y ∈ r.tree ∧ ¬ region.Meets y) ∧
      ((∀ o ∈ r.tree.getOverlaps region, o.Weightless) → r.Sized → r'.Sized) := by
  have hoverlaps : ∀ o, o ∈ r.tree.getOverlaps region ↔ o ∈ r.tree ∧ region.Meets o := fun o =>
    h.apart.mem_getOverlaps hregion.nonempty
  have hapart := h.apart.update hregion.nonempty
  have hmem : ∀ y, y ∈ (r.tree.update region).1 ↔ y = region ∨ y ∈ r.tree ∧ ¬ region.Meets y :=
    fun y => h.apart.mem_update hregion.nonempty
  -- The overlaps are no longer in the tree, and the region that has their place has another id.
  have hremove : ∀ o ∈ r.tree.getOverlaps region,
      (r.tree.update region).1.remove o = (r.tree.update region).1 := by
    intro o ho
    obtain ⟨hotree, hmeets⟩ := (hoverlaps o).mp ho
    refine hapart.remove_eq_self (h.apart.nonempty o hotree) fun y hy hmeets' => ?_
    rcases (hmem y).mp hy with rfl | ⟨hy, hfree⟩
    · exact (hid o hotree).symm
    · exact absurd (h.apart.eq_of_meets o hotree y hy hmeets' ▸ hmeets) hfree
  have hindexed : Indexed { r with tree := (r.tree.update region).1 } (· ∈ r.tree) :=
    ⟨h.indexed.wellFormed, h.indexed.eq_of_meets, h.indexed.get, h.indexed.apart, h.indexed.mem,
      h.indexed.sized⟩
  obtain ⟨r₁, hr₁, hindexed₁, htree₁, hsized₁⟩ := Indexed.removeAll (r.tree.getOverlaps region)
    h.apart.nodup_getOverlaps (fun o ho => ((hoverlaps o).mp ho).1) hindexed hremove
  obtain ⟨hindexed₂, htree₂, hsized₂⟩ := hindexed₁.addPeers hregion
    (fun y hy hmeets => hy.2 ((hoverlaps y).mpr ⟨hy.1, hmeets⟩)) fun y hy => hid y hy.1
  have htree : (RegionsInfo.addPeers { r₁ with regions := r₁.regions.put region } region).tree =
      (r.tree.update region).1 := htree₂.trans htree₁
  refine ⟨_, ?_, ⟨?_, hindexed₂.congr fun y => ?_⟩, fun y => ?_,
    fun hweight h => hsized₂ (hsized₁ hweight h)⟩
  · have hupdate : r.tree.update region =
        ((r.tree.update region).1, r.tree.getOverlaps region) := rfl
    rw [RegionsInfo.addRegion, hupdate]
    simp only [hr₁]
    rfl
  · rw [htree]
    exact hapart
  · rw [htree, hmem, hoverlaps]
    exact or_congr_right (and_congr_right fun hy => not_congr (and_iff_right hy))
  · rw [htree, hmem]

theorem Inv.setRegion (h : r.Inv) (hregion : region.WellFormed) :
    ∃ r' overlaps, r.setRegion region = .ok (r', overlaps) ∧ r'.Inv ∧ overlaps.Nodup ∧
      (∀ o, o ∈ overlaps ↔ o ∈ r.tree ∧ o.id ≠ region.id ∧ region.Meets o) ∧
      (∀ y, y ∈ r'.tree ↔ y = region ∨ y ∈ r.tree ∧ y.id ≠ region.id ∧ ¬ region.Meets y) ∧
      ((∀ o ∈ r.tree, o.id = region.id ∨ region.Meets o → o.Weightless) → r.Sized → r'.Sized) := by
  -- What is left when the region with the same id has been removed.
  have hadd : ∀ {r₁ : RegionsInfo}, r₁.Inv →
      (∀ y, y ∈ r₁.tree ↔ y ∈ r.tree ∧ y.id ≠ region.id) →
      ((∀ o ∈ r.tree, o.id = region.id ∨ region.Meets o → o.Weightless) → r.Sized → r₁.Sized) →
      ∃ r' overlaps, r₁.addRegion region = .ok (r', overlaps) ∧ r'.Inv ∧ overlaps.Nodup ∧
        (∀ o, o ∈ overlaps ↔ o ∈ r.tree ∧ o.id ≠ region.id ∧ region.Meets o) ∧
        (∀ y, y ∈ r'.tree ↔ y = region ∨ y ∈ r.tree ∧ y.id ≠ region.id ∧ ¬ region.Meets y) ∧
        ((∀ o ∈ r.tree, o.id = region.id ∨ region.Meets o → o.Weightless) →
          r.Sized → r'.Sized) := by
    intro r₁ h₁ hmem hsized₁
    obtain ⟨r', hr', hinv, htree, hsized⟩ := h₁.addRegion hregion fun y hy => ((hmem y).mp hy).2
    have hoverlaps : ∀ o, o ∈ r₁.tree.getOverlaps region ↔
        o ∈ r.tree ∧ o.id ≠ region.id ∧ region.Meets o := fun o => by
      rw [h₁.apart.mem_getOverlaps hregion.nonempty, hmem, and_assoc]
    refine ⟨r', _, hr', hinv, h₁.apart.nodup_getOverlaps, hoverlaps, fun y => ?_,
      fun hweight h => ?_⟩
    · rw [htree, hmem, and_assoc]
    refine hsized (fun o ho => ?_) (hsized₁ hweight h)
    obtain ⟨ho, -, hmeets⟩ := (hoverlaps o).mp ho
    exact hweight o ho (Or.inr hmeets)
  rw [RegionsInfo.setRegion]
  cases hget : r.regions.get region.id with
  | none =>
    refine hadd h (fun y => ⟨fun hy => ⟨hy, fun hid => ?_⟩, fun hy => hy.1⟩) fun _ => id
    have := (h.indexed.get region.id y).mpr ⟨hy, hid⟩
    simp [hget] at this
  | some origin =>
    obtain ⟨horigin, hid⟩ := (h.indexed.get region.id origin).mp hget
    obtain ⟨hinv, hmem, hsized⟩ := h.removeRegion horigin
    refine hadd hinv (fun y => (hmem y).trans (and_congr_right fun hy => not_congr ?_))
      fun hweight => hsized (hweight origin horigin (Or.inl hid))
    constructor
    · rintro rfl
      exact hid
    · intro hyid
      have := (h.indexed.get region.id y).mpr ⟨hy, hyid⟩
      exact Option.some.inj (this.symm.trans hget)

theorem Inv.step {e : RegionEvent} {r' : RegionsInfo} (h : r.Inv)
    (hstep : machine.step r e = some r') : r'.Inv := by
  cases e with
  | set region =>
    simp only [machine] at hstep
    split_ifs at hstep with hregion
    obtain ⟨r₁, overlaps, hr₁, hinv, -⟩ := h.setRegion hregion
    rw [hr₁] at hstep
    obtain rfl : r₁ = r' := Option.some.inj hstep
    exact hinv
  | remove region =>
    simp only [machine] at hstep
    split_ifs at hstep with hget
    obtain rfl := Option.some.inj hstep
    exact (h.removeRegion ((h.indexed.get region.id region).mp hget).1).1

theorem Inv.perm (h : r.Inv) : (r.regions.m.entries.map Sigma.snd).Perm r.tree := by
  have hentry : ∀ e ∈ r.regions.m.entries, e.2 ∈ r.tree ∧ e.2.id = e.1 := fun e he =>
    (h.indexed.get e.1 e.2).mp (AList.mem_lookup_iff.mpr he)
  -- The keys of the map are the ids of its regions.
  have hkeys : (r.regions.m.entries.map Sigma.snd).map RegionInfo.id = r.regions.m.keys := by
    rw [map_map]
    exact map_congr_left fun e he => (hentry e he).2
  have hnodup : (r.regions.m.entries.map Sigma.snd).Nodup :=
    List.Nodup.of_map RegionInfo.id (hkeys ▸ r.regions.m.keys_nodup)
  refine (perm_ext_iff_of_nodup hnodup h.apart.sorted.nodup).mpr fun x => ?_
  rw [mem_map]
  constructor
  · rintro ⟨e, he, rfl⟩
    exact (hentry e he).1
  · intro hx
    have hget := (h.indexed.get x.id x).mpr ⟨hx, rfl⟩
    exact ⟨⟨x.id, x⟩, AList.mem_lookup_iff.mp hget, rfl⟩

theorem Inv.totalSize (h : r.Inv) :
    r.regions.totalSize = int64 (r.tree.map RegionInfo.approximateSize).sum := by
  have hperm := (h.perm.map RegionInfo.approximateSize).sum_eq
  rw [h.indexed.sized, ← hperm, GoMap.sum, map_map]
  rfl

end RegionsInfo

namespace RegionInfo.WellFormed

variable {x : RegionInfo} {s : ℕ} {p : Peer}

theorem id_eq_leaderId (h : x.WellFormed) (hp : p ∈ x.peers) :
    p.id = x.leaderId ↔ x.leader = some p := by
  unfold leaderId
  cases hleader : x.leader with
  | none => simpa using h.id_ne_zero p hp
  | some l =>
    have hl : l ∈ x.peers := h.leader l (by simp [hleader])
    simp only [Option.map_some, Option.getD_some, Option.some.injEq]
    exact ⟨fun hid => inj_on_of_nodup_map h.ids hl hp hid.symm, fun heq => by rw [heq]⟩

theorem mem_leader (h : x.WellFormed) :
    (Role.leader, s) ∈ x.placements ↔ ∃ p, x.leader = some p ∧ p.storeId = s := by
  simp only [placements, getVoters, h.learners, map_nil, append_nil, mem_append,
    mem_map, Prod.mk.injEq, reduceCtorEq, false_and, and_false, exists_false, or_false,
    ite_eq_left_iff, imp_false, not_not]
  constructor
  · rintro ⟨p, hp, hid, hs⟩
    exact ⟨p, (h.id_eq_leaderId hp).mp hid, hs⟩
  · rintro ⟨p, hleader, hs⟩
    have hp := h.leader p hleader
    exact ⟨p, hp, (h.id_eq_leaderId hp).mpr hleader, hs⟩

theorem mem_follower (h : x.WellFormed) :
    (Role.follower, s) ∈ x.placements ↔ ∃ p ∈ x.peers, x.leader ≠ some p ∧ p.storeId = s := by
  simp only [placements, getVoters, h.learners, map_nil, append_nil, mem_append,
    mem_map, Prod.mk.injEq, reduceCtorEq, false_and, and_false, exists_false, or_false,
    ite_eq_right_iff, imp_false]
  exact exists_congr fun p => and_congr_right fun hp => by rw [h.id_eq_leaderId hp]

theorem mem_pending (h : x.WellFormed) :
    (Role.pending, s) ∈ x.placements ↔ ∃ p ∈ x.pendingPeers, p.storeId = s := by
  simp only [placements, getVoters, h.learners, map_nil, append_nil, mem_append,
    mem_map, Prod.mk.injEq, true_and]
  refine ⟨fun hmem => hmem.resolve_left ?_, Or.inr⟩
  rintro ⟨p, -, hrole, -⟩
  split_ifs at hrole

theorem not_mem_learner (h : x.WellFormed) : (Role.learner, s) ∉ x.placements := by
  simp only [placements, getVoters, h.learners, map_nil, append_nil, mem_append,
    mem_map, Prod.mk.injEq, reduceCtorEq, false_and, and_false, exists_false, or_false]
  rintro ⟨p, -, hrole, -⟩
  split_ifs at hrole

end RegionInfo.WellFormed

namespace RegionsInfo

structure Agree (r : RegionsInfo) : Prop where
  disjoint : r.tree.Pairwise fun x y => ∀ key, ¬ (x.contains key ∧ y.contains key)
  regions : ∀ id x, r.getRegion id = some x ↔ x ∈ r.tree ∧ x.id = id
  leaders : ∀ s x, x ∈ (r.leaders s).tree ↔
    x ∈ r.tree ∧ ∃ p, x.leader = some p ∧ p.storeId = s
  followers : ∀ s x, x ∈ (r.followers s).tree ↔
    x ∈ r.tree ∧ ∃ p ∈ x.peers, x.leader ≠ some p ∧ p.storeId = s
  pendingPeers : ∀ s x, x ∈ (r.pendingPeers s).tree ↔
    x ∈ r.tree ∧ ∃ p ∈ x.pendingPeers, p.storeId = s
  nodup : r.tree.Nodup ∧ ∀ role s, (r.subTrees role s).tree.Nodup
  totalSize : r.regions.totalSize = int64 (r.tree.map RegionInfo.approximateSize).sum

variable {r : RegionsInfo}

theorem Inv.agree (h : r.Inv) : r.Agree where
  disjoint := by
    refine h.apart.sorted.imp_of_mem fun {x y} hx hy hlt key hkey => hlt.ne ?_
    have hmeets : x.Meets y :=
      ⟨key, RegionInfo.contains_iff.mp hkey.1, RegionInfo.contains_iff.mp hkey.2⟩
    rw [h.apart.eq_of_meets x hx y hy hmeets]
  regions := h.indexed.get
  leaders s x := (h.indexed.mem .leader s x).trans
    (and_congr_right fun hx => (h.indexed.wellFormed x hx).mem_leader)
  followers s x := (h.indexed.mem .follower s x).trans
    (and_congr_right fun hx => (h.indexed.wellFormed x hx).mem_follower)
  pendingPeers s x := (h.indexed.mem .pending s x).trans
    (and_congr_right fun hx => (h.indexed.wellFormed x hx).mem_pending)
  nodup := ⟨h.apart.sorted.nodup, fun role s => (h.indexed.apart role s).sorted.nodup⟩
  totalSize := h.totalSize

/-- After every sequence of calls, the indexes agree. The next `SetRegion` returns the regions with
another id whose ranges have a key in common with the new one, and stores the new one in the place
of those and of the one with its id. -/
theorem run_agree (es : List RegionEvent) (hrun : machine.run {} es = some r) :
    r.Agree ∧ ∀ region : RegionInfo, region.WellFormed → ∃ r' overlaps,
      r.setRegion region = .ok (r', overlaps) ∧ overlaps.Nodup ∧
        (∀ o, o ∈ overlaps ↔
          o ∈ r.tree ∧ o.id ≠ region.id ∧ ∃ key, region.contains key ∧ o.contains key) ∧
        ∀ x, x ∈ r'.tree ↔ x = region ∨ x ∈ r.tree ∧ x.id ≠ region.id ∧ x ∉ overlaps := by
  have hinv : r.Inv := Machine.run_invariant (fun _ _ _ h hstep => h.step hstep) inv_init hrun
  refine ⟨hinv.agree, fun region hregion => ?_⟩
  obtain ⟨r', overlaps, hr', -, hnodup, hmem, htree, -⟩ := hinv.setRegion hregion
  refine ⟨r', overlaps, hr', hnodup, fun o => (hmem o).trans ?_, fun x => ?_⟩
  · refine and_congr_right fun _ => and_congr_right fun _ => exists_congr fun key => ?_
    rw [RegionInfo.contains_iff, RegionInfo.contains_iff]
  · rw [htree, hmem]
    tauto

theorem agree_of_split : ∃ r, machine.run {}
      [.set {
          id := 1, peers := [⟨1, 1⟩, ⟨2, 2⟩], leader := some ⟨1, 1⟩, approximateSize := 10 },
        .set {
          id := 2, startKey := [109], peers := [⟨3, 1⟩, ⟨4, 2⟩], leader := some ⟨3, 1⟩,
          approximateSize := 5 },
        .set {
          id := 1, endKey := [109], peers := [⟨1, 1⟩, ⟨2, 2⟩], leader := some ⟨1, 1⟩,
          approximateSize := 5 },
        .set {
          id := 2, startKey := [109], peers := [⟨4, 2⟩, ⟨5, 3⟩], leader := some ⟨4, 2⟩,
          pendingPeers := [⟨5, 3⟩], approximateSize := 6 }] = some r ∧ r.Agree := by
  have hagree : ∀ {es}, (machine.run {} es).isSome → ∃ r, machine.run {} es = some r ∧ r.Agree := by
    intro es hsome
    obtain ⟨r, hr⟩ := Option.isSome_iff_exists.mp hsome
    exact ⟨r, hr, (run_agree es hr).1⟩
  exact hagree (by decide +kernel)

end RegionsInfo

end TinyKV
