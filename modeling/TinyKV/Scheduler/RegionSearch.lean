import TinyKV.Btree
import TinyKV.Scheduler.RegionsInfo

/-!
# Lookups and scans of regions

`SearchRegion`, `SearchPrevRegion` and `ScanRange` of `scheduler/server/core/region.go` find regions
in the tree and return those that the map has under the same ids.
-/

namespace TinyKV

open List

namespace RegionTree

def keyRegion (startKey : Bytes) : RegionInfo := { id := 0, startKey := startKey }

def search (t : RegionTree) (regionKey : Bytes) : Option RegionInfo := t.find (keyRegion regionKey)

def getAdjacentRegions (t : RegionTree) (region : RegionInfo) :
    Option RegionInfo × Option RegionInfo :=
  let next := (OrderedList.ascendGreaterOrEqual RegionInfo.startKey region.startKey t).find?
    fun i => i.startKey ≠ region.startKey
  let prev := (OrderedList.descendLessOrEqual RegionInfo.startKey region.startKey t).find?
    fun i => i.startKey ≠ region.startKey
  (prev, next)

def searchPrev (t : RegionTree) (regionKey : Bytes) : Option RegionInfo :=
  match t.find (keyRegion regionKey) with
  | none => none
  | some curRegion =>
    match (t.getAdjacentRegions curRegion).1 with
    | none => none
    | some prevRegion => if prevRegion.endKey ≠ curRegion.startKey then none else some prevRegion

def scanRange {σ : Type} (t : RegionTree) (startKey : Bytes) (f : RegionInfo → σ → σ × Bool)
    (s : σ) : σ :=
  let startItem := (t.find (keyRegion startKey)).getD (keyRegion startKey)
  (Btree.visit f (OrderedList.ascendGreaterOrEqual RegionInfo.startKey startItem.startKey t) s).1

end RegionTree

namespace RegionsInfo

def searchRegion (r : RegionsInfo) (regionKey : Bytes) : Option RegionInfo :=
  match r.tree.search regionKey with
  | none => none
  | some region => r.getRegion region.id

def searchPrevRegion (r : RegionsInfo) (regionKey : Bytes) : Option RegionInfo :=
  match r.tree.searchPrev regionKey with
  | none => none
  | some region => r.getRegion region.id

def scanRegion (r : RegionsInfo) (endKey : Bytes) (limit : ℤ) (region : RegionInfo)
    (res : List (Option RegionInfo)) : List (Option RegionInfo) × Bool :=
  if endKey ≠ [] ∧ endKey ≤ region.startKey then (res, false)
  else if 0 < limit ∧ limit ≤ res.length then (res, false)
  else (res ++ [r.getRegion region.id], true)

def scanRange (r : RegionsInfo) (startKey endKey : Bytes) (limit : ℤ) :
    List (Option RegionInfo) :=
  r.tree.scanRange startKey (r.scanRegion endKey limit) []

def setAll (r : RegionsInfo) (regions : List RegionInfo) : Go RegionsInfo :=
  regions.foldlM (fun r region => do
    let (r, _) ← r.setRegion region
    return r) r

end RegionsInfo

def RegionInfo.RangeOk (region : RegionInfo) : Prop :=
  region.endKey = [] ∨ region.startKey < region.endKey

instance (region : RegionInfo) : Decidable region.RangeOk := inferInstanceAs (Decidable (_ ∨ _))

theorem RegionInfo.RangeOk.nonempty {region : RegionInfo} (h : region.RangeOk) :
    (region.startKey : WithTop Bytes) < region.stop := by
  unfold stop
  split_ifs with hend
  · exact WithTop.coe_lt_top _
  · exact WithTop.coe_lt_coe.mpr (h.resolve_left hend)

namespace RegionsInfo

variable {r r' : RegionsInfo} {region x y : RegionInfo}

/-- The tree has disjoint ranges, and the map has the regions of the tree under their ids. -/
structure Located (r : RegionsInfo) : Prop where
  apart : r.tree.Apart
  getRegion : ∀ id x, r.getRegion id = some x ↔ x ∈ r.tree ∧ x.id = id

theorem foldl_keeps {β : Type} {f : RegionsInfo → β → RegionsInfo}
    (hf : ∀ r b, (f r b).tree = r.tree ∧ (f r b).regions = r.regions) (bs : List β)
    (r : RegionsInfo) : (bs.foldl f r).tree = r.tree ∧ (bs.foldl f r).regions = r.regions := by
  induction bs generalizing r with
  | nil => exact ⟨rfl, rfl⟩
  | cons b bs ih =>
    obtain ⟨htree, hregions⟩ := ih (f r b)
    exact ⟨htree.trans (hf r b).1, hregions.trans (hf r b).2⟩

theorem removeRegion_fields (r : RegionsInfo) (x : RegionInfo) :
    (r.removeRegion x).tree = r.tree.remove x ∧
      (r.removeRegion x).regions = r.regions.delete x.id := by
  unfold RegionsInfo.removeRegion
  apply foldl_keeps
  intro r peer
  exact ⟨rfl, rfl⟩

theorem addPeers_fields (r : RegionsInfo) (x : RegionInfo) :
    (r.addPeers x).tree = r.tree ∧ (r.addPeers x).regions = r.regions := by
  rw [addPeers_eq]
  apply foldl_keeps
  intro r p
  exact ⟨rfl, rfl⟩

theorem getRegion_removeRegion (r : RegionsInfo) (x : RegionInfo) (id : ℕ) :
    (r.removeRegion x).getRegion id = if id = x.id then none else r.getRegion id := by
  unfold RegionsInfo.getRegion
  rw [(removeRegion_fields r x).2, RegionMap.get_delete]

theorem located_empty : Located {} :=
  ⟨RangeList.apart_nil, fun id x => by simp [RegionsInfo.getRegion, RegionMap.get]⟩

namespace Located

theorem getRegion_of_mem (h : r.Located) (hx : x ∈ r.tree) : r.getRegion x.id = some x :=
  (h.getRegion x.id x).mpr ⟨hx, rfl⟩

theorem mem_tree (h : r.Located) : x ∈ r.tree ↔ r.getRegion x.id = some x := by
  rw [h.getRegion x.id x]
  simp

theorem eq_of_id_eq (h : r.Located) (hx : x ∈ r.tree) (hy : y ∈ r.tree) (hid : x.id = y.id) :
    x = y := by
  have hget := h.getRegion_of_mem hx
  rw [hid, h.getRegion_of_mem hy] at hget
  exact (Option.some.inj hget).symm

theorem removeRegion (h : r.Located) (hx : x ∈ r.tree) : (r.removeRegion x).Located := by
  have hmem : ∀ y, y ∈ (r.removeRegion x).tree ↔ y ∈ r.tree ∧ y ≠ x := by
    intro y
    rw [(removeRegion_fields r x).1]
    exact h.apart.mem_remove hx
  refine ⟨h.apart.subset ?_ fun y hy => ((hmem y).mp hy).1, fun id y => ?_⟩
  · rw [(removeRegion_fields r x).1]
    exact RegionTree.sorted_remove h.apart.sorted
  · rw [getRegion_removeRegion, hmem]
    split_ifs with hid
    · -- The region with the id is gone.
      simp only [false_iff]
      rintro ⟨⟨hy, hne⟩, hyid⟩
      exact hne (h.eq_of_id_eq hy hx (hyid.trans hid))
    · rw [h.getRegion]
      constructor
      · rintro ⟨hy, rfl⟩
        refine ⟨⟨hy, ?_⟩, rfl⟩
        rintro rfl
        exact hid rfl
      · rintro ⟨⟨hy, -⟩, hyid⟩
        exact ⟨hy, hyid⟩

end Located

theorem removeAll (items : List RegionInfo) (hids : (items.map RegionInfo.id).Nodup)
    (r : RegionsInfo) (htree : ∀ item ∈ items, r.tree.remove item = r.tree)
    (hget : ∀ item ∈ items, r.getRegion item.id = some item) :
    ∃ r', items.foldlM (fun r item => do
        let removed ← Go.deref (r.getRegion item.id)
        return r.removeRegion removed) r = .ok r' ∧ r'.tree = r.tree ∧
      ∀ id, r'.getRegion id = if id ∈ items.map RegionInfo.id then none else r.getRegion id := by
  induction items generalizing r with
  | nil => exact ⟨r, rfl, rfl, by simp⟩
  | cons item items ih =>
    obtain ⟨hnotMem, hids⟩ := nodup_cons.mp hids
    have htree₁ : (r.removeRegion item).tree = r.tree :=
      (removeRegion_fields r item).1.trans (htree item mem_cons_self)
    obtain ⟨r', hrun, htree', hget'⟩ := ih hids (r.removeRegion item)
      (fun item' hitem' => by
        rw [htree₁]
        exact htree item' (mem_cons_of_mem item hitem'))
      (fun item' hitem' => by
        have hne : item'.id ≠ item.id := fun heq =>
          hnotMem (heq ▸ mem_map_of_mem hitem')
        rw [getRegion_removeRegion, if_neg hne]
        exact hget item' (mem_cons_of_mem item hitem'))
    refine ⟨r', ?_, htree'.trans htree₁, fun id => ?_⟩
    · rw [foldlM_cons, hget item mem_cons_self]
      exact hrun
    · rw [hget', getRegion_removeRegion]
      by_cases hid : id = item.id <;> simp [hid]

theorem Located.addRegion (h : r.Located) (hregion : region.RangeOk)
    (hid : r.getRegion region.id = none) :
    ∃ r' overlaps, r.addRegion region = .ok (r', overlaps) ∧ r'.Located := by
  have hne := hregion.nonempty
  have hupdate : ∀ {x}, x ∈ (r.tree.update region).1 ↔ x = region ∨ x ∈ r.tree ∧ ¬ region.Meets x :=
    h.apart.mem_update hne
  have hoverlaps : ∀ {x}, x ∈ r.tree.getOverlaps region ↔ x ∈ r.tree ∧ region.Meets x :=
    h.apart.mem_getOverlaps hne
  have hids : ((r.tree.getOverlaps region).map RegionInfo.id).Nodup :=
    h.apart.nodup_getOverlaps.map_on fun x hx y hy =>
      h.eq_of_id_eq (hoverlaps.mp hx).1 (hoverlaps.mp hy).1
  -- No region of the new tree that has a key of a replaced one has its id.
  have hother : ∀ item ∈ r.tree.getOverlaps region, ∀ y ∈ (r.tree.update region).1,
      item.Meets y → y.id ≠ item.id := by
    intro item hitem y hy hmeets heq
    obtain ⟨hmem, hmeets'⟩ := hoverlaps.mp hitem
    obtain rfl | ⟨hy, hfree⟩ := hupdate.mp hy
    · rw [heq, h.getRegion_of_mem hmem] at hid
      cases hid
    · rw [h.apart.eq_of_meets item hmem y hy hmeets] at hmeets'
      exact hfree hmeets'
  obtain ⟨r', hrun, htree, hget⟩ := removeAll (r.tree.getOverlaps region) hids
    { r with tree := (r.tree.update region).1 }
    (fun item hitem => (h.apart.update hne).remove_eq_self
      (h.apart.nonempty item (hoverlaps.mp hitem).1) (hother item hitem))
    (fun item hitem => h.getRegion_of_mem (hoverlaps.mp hitem).1)
  refine ⟨({ r' with regions := r'.regions.put region } : RegionsInfo).addPeers region,
    r.tree.getOverlaps region, ?_, ?_, ?_⟩
  · exact Go.bind_eq_ok.mpr ⟨r', hrun, rfl⟩
  · rw [(addPeers_fields _ region).1, htree]
    exact h.apart.update hne
  · intro id x
    have hput : ({ r' with regions := r'.regions.put region } : RegionsInfo).getRegion id =
        if id = region.id then some region else r'.getRegion id := RegionMap.get_put id
    have hfields : (({ r' with regions := r'.regions.put region } : RegionsInfo).addPeers
        region).getRegion id = if id = region.id then some region else r'.getRegion id := by
      rw [← hput]
      unfold RegionsInfo.getRegion
      rw [(addPeers_fields _ region).2]
    rw [(addPeers_fields _ region).1, hfields, hget, htree, hupdate]
    have hold : ({ r with tree := (r.tree.update region).1 } : RegionsInfo).getRegion id =
      r.getRegion id := rfl
    rw [hold]
    split_ifs with heq hmem
    · subst heq
      constructor
      · intro hx
        obtain rfl := Option.some.inj hx
        exact ⟨Or.inl rfl, rfl⟩
      · rintro ⟨rfl | ⟨hx, -⟩, hxid⟩
        · rfl
        · rw [← hxid, h.getRegion_of_mem hx] at hid
          cases hid
    · -- The region with the id was replaced.
      simp only [false_iff]
      rintro ⟨rfl | ⟨hx, hfree⟩, hxid⟩
      · exact heq hxid.symm
      · obtain ⟨item, hitem, hitemId⟩ := mem_map.mp hmem
        obtain ⟨hitem, hmeets⟩ := hoverlaps.mp hitem
        rw [h.eq_of_id_eq hitem hx (hitemId.trans hxid.symm)] at hmeets
        exact hfree hmeets
    · rw [h.getRegion]
      constructor
      · rintro ⟨hx, rfl⟩
        refine ⟨Or.inr ⟨hx, fun hmeets => hmem ?_⟩, rfl⟩
        exact mem_map_of_mem (hoverlaps.mpr ⟨hx, hmeets⟩)
      · rintro ⟨rfl | ⟨hx, -⟩, hxid⟩
        · exact absurd hxid.symm heq
        · exact ⟨hx, hxid⟩

theorem Located.setRegion (h : r.Located) (hregion : region.RangeOk) :
    ∃ r' overlaps, r.setRegion region = .ok (r', overlaps) ∧ r'.Located := by
  unfold RegionsInfo.setRegion
  cases hget : r.regions.get region.id with
  | none => exact h.addRegion hregion hget
  | some origin =>
    obtain ⟨horigin, hid⟩ := (h.getRegion region.id origin).mp hget
    refine (h.removeRegion horigin).addRegion hregion ?_
    rw [getRegion_removeRegion, if_pos hid.symm]

theorem Located.setAll {regions : List RegionInfo} (h : r.Located)
    (hregions : ∀ region ∈ regions, region.RangeOk) :
    ∃ r', r.setAll regions = .ok r' ∧ r'.Located := by
  induction regions generalizing r with
  | nil => exact ⟨r, rfl, h⟩
  | cons region regions ih =>
    obtain ⟨hregion, hregions⟩ := forall_mem_cons.mp hregions
    obtain ⟨r₁, overlaps, hset, h₁⟩ := h.setRegion hregion
    obtain ⟨r', hrun, h'⟩ := ih h₁ hregions
    refine ⟨r', ?_, h'⟩
    rw [RegionsInfo.setAll, foldlM_cons, hset]
    exact hrun

end RegionsInfo

namespace RegionTree

variable {t : RegionTree} {x cur : RegionInfo} {key : Bytes}

theorem Apart.search_eq_some (h : t.Apart) :
    t.search key = some x ↔ x ∈ t ∧ x.contains key = true := by
  rw [search, h.find_eq_some, RegionInfo.contains_iff]
  rfl

theorem Apart.prev_eq_some (h : t.Apart) : (t.getAdjacentRegions cur).1 = some x ↔
    x ∈ t ∧ x.startKey < cur.startKey ∧ ∀ y ∈ t, y.startKey < cur.startKey →
      y.startKey ≤ x.startKey := by
  unfold getAdjacentRegions
  convert h.sorted.find?_descendLessOrEqual

theorem Apart.prev_ends_iff (h : t.Apart) :
    (t.getAdjacentRegions cur).1 = some x ∧ x.endKey = cur.startKey ↔
      x ∈ t ∧ x.stop = cur.startKey := by
  rw [h.prev_eq_some]
  constructor
  · rintro ⟨⟨hx, hlt, -⟩, hend⟩
    refine ⟨hx, ?_⟩
    -- A key that is greater than another one is not empty.
    have hne : x.endKey ≠ [] := by
      rw [hend]
      intro hnil
      rw [hnil] at hlt
      exact absurd hlt (not_lt_nil _)
    rw [RegionInfo.stop, if_neg hne, hend]
  · rintro ⟨hx, hstop⟩
    have hlt : x.startKey < cur.startKey := by
      have hnonempty := h.nonempty x hx
      rw [hstop] at hnonempty
      exact WithTop.coe_lt_coe.mp hnonempty
    refine ⟨⟨hx, hlt, fun y hy hycur => ?_⟩, ?_⟩
    · -- A region between the two would start within the first one.
      by_contra hnot
      have hle := h.le_of_lt hx hy (not_le.mp hnot)
      rw [hstop, WithTop.coe_le_coe] at hle
      exact absurd hycur (not_lt.mpr hle)
    · unfold RegionInfo.stop at hstop
      split_ifs at hstop with hend
      · exact absurd hstop WithTop.top_ne_coe
      · exact WithTop.coe_inj.mp hstop

theorem Apart.searchPrev_eq_some (h : t.Apart) : t.searchPrev key = some x ↔
    ∃ cur ∈ t, cur.contains key = true ∧ x ∈ t ∧ x.stop = cur.startKey := by
  have hsearch : ∀ {cur}, t.find (keyRegion key) = some cur ↔ cur ∈ t ∧ cur.contains key = true :=
    h.search_eq_some
  unfold searchPrev
  cases hcur : t.find (keyRegion key) with
  | none =>
    simp only [reduceCtorEq, false_iff]
    rintro ⟨cur, hmem, hcontains, -⟩
    rw [hsearch.mpr ⟨hmem, hcontains⟩] at hcur
    cases hcur
  | some cur =>
    obtain ⟨hmem, hcontains⟩ := hsearch.mp hcur
    -- There is no other region with the key.
    have hunique : (∃ cur' ∈ t, cur'.contains key = true ∧ x ∈ t ∧ x.stop = cur'.startKey) ↔
        x ∈ t ∧ x.stop = cur.startKey := by
      constructor
      · rintro ⟨cur', hmem', hcontains', hx⟩
        have heq : some cur = some cur' := hcur.symm.trans (hsearch.mpr ⟨hmem', hcontains'⟩)
        rwa [Option.some.inj heq]
      · exact fun hx => ⟨cur, hmem, hcontains, hx⟩
    rw [hunique, ← h.prev_ends_iff]
    cases hprev : (t.getAdjacentRegions cur).1 with
    | none => simp [hprev]
    | some prev =>
      simp only [hprev, Option.some.injEq, ite_eq_iff, reduceCtorEq, and_false, false_or, not_not]
      constructor
      · rintro ⟨hend, rfl⟩
        exact ⟨rfl, hend⟩
      · rintro ⟨rfl, hend⟩
        exact ⟨hend, rfl⟩

end RegionTree

namespace RegionsInfo

variable {r : RegionsInfo} {x : RegionInfo} {key startKey endKey : Bytes} {limit : ℤ}

def cut (limit : ℤ) (found : ℕ) (regions : List RegionInfo) : List RegionInfo :=
  if 0 < limit then regions.take (limit.toNat - found) else regions

theorem visit_scanRegion (regions : List RegionInfo) (res : List (Option RegionInfo)) :
    (Btree.visit (r.scanRegion endKey limit) regions res).1 =
      res ++ (cut limit res.length (regions.takeWhile fun item =>
        !(endKey ≠ [] && endKey ≤ item.startKey))).map fun item => r.getRegion item.id := by
  induction regions generalizing res with
  | nil => simp [Btree.visit, cut]
  | cons region regions ih =>
    rw [Btree.visit, scanRegion]
    by_cases hend : endKey ≠ [] ∧ endKey ≤ region.startKey
    · simp [hend, cut]
    · have htake : (!(decide (endKey ≠ []) && decide (endKey ≤ region.startKey))) = true := by
        rw [Bool.not_eq_true', ← Bool.not_eq_true, Bool.and_eq_true, decide_eq_true_eq,
          decide_eq_true_eq]
        exact hend
      rw [takeWhile_cons, if_pos htake, if_neg hend]
      by_cases hlimit : 0 < limit ∧ limit ≤ res.length
      · have hzero : limit.toNat - res.length = 0 := by omega
        simp [hlimit, cut, hzero]
      · rw [if_neg hlimit, if_pos rfl, ih, append_assoc]
        congr 1
        unfold cut
        split_ifs with hpos
        · have hsucc : limit.toNat - res.length =
              limit.toNat - (res ++ [r.getRegion region.id]).length + 1 := by
            rw [length_append, length_singleton]
            omega
          rw [hsucc, take_succ_cons, map_cons, singleton_append]
        · rw [map_cons, singleton_append]

theorem scanRange_eq : r.scanRange startKey endKey limit =
    (cut limit 0 (r.tree.getOverlaps { id := 0, startKey := startKey, endKey := endKey })).map
      fun item => r.getRegion item.id := by
  have hstart : ((r.tree.find (RegionTree.keyRegion startKey)).getD
      (RegionTree.keyRegion startKey)).startKey =
      ((r.tree.find { id := 0, startKey := startKey, endKey := endKey }).getD
        { id := 0, startKey := startKey, endKey := endKey }).startKey := by
    have hfind : r.tree.find (RegionTree.keyRegion startKey) =
        r.tree.find { id := 0, startKey := startKey, endKey := endKey } := rfl
    rw [hfind]
    cases r.tree.find { id := 0, startKey := startKey, endKey := endKey } <;> rfl
  rw [scanRange, RegionTree.scanRange, visit_scanRegion, hstart]
  rfl

/-- The lookups are exact: they return the regions of the map with the keys that they were asked
for. -/
structure ExactSearch (r : RegionsInfo) : Prop where
  searchRegion : ∀ key x, r.searchRegion key = some x ↔
    r.getRegion x.id = some x ∧ x.contains key = true
  searchPrevRegion : ∀ key x, r.searchPrevRegion key = some x ↔ r.getRegion x.id = some x ∧
    ∃ cur, r.getRegion cur.id = some cur ∧ cur.contains key = true ∧ x.stop = cur.startKey
  scanRange : ∀ startKey endKey limit, endKey = [] ∨ startKey < endKey →
    ∃ regions, OrderedList.Sorted RegionInfo.startKey regions ∧
      (∀ x, x ∈ regions ↔ r.getRegion x.id = some x ∧ RegionInfo.Meets
        { id := 0, startKey := startKey, endKey := endKey } x) ∧
      r.scanRange startKey endKey limit =
        (if 0 < limit then regions.take limit.toNat else regions).map some

theorem searchRegion_eq :
    r.searchRegion key = (r.tree.search key).bind fun region => r.getRegion region.id := by
  unfold searchRegion
  cases r.tree.search key <;> rfl

theorem searchPrevRegion_eq :
    r.searchPrevRegion key = (r.tree.searchPrev key).bind fun region => r.getRegion region.id := by
  unfold searchPrevRegion
  cases r.tree.searchPrev key <;> rfl

theorem Located.bind_getRegion (h : r.Located) {found : Option RegionInfo} {P : RegionInfo → Prop}
    (hfound : ∀ x, found = some x ↔ x ∈ r.tree ∧ P x) (x : RegionInfo) :
    (found.bind fun region => r.getRegion region.id) = some x ↔
      r.getRegion x.id = some x ∧ P x := by
  rw [← h.mem_tree, ← hfound]
  cases found with
  | none => simp
  | some y =>
    obtain ⟨hy, -⟩ := (hfound y).mp rfl
    rw [Option.bind_some, h.getRegion_of_mem hy]

theorem Located.exactSearch (h : r.Located) : r.ExactSearch where
  searchRegion key x := by
    rw [searchRegion_eq]
    exact h.bind_getRegion (fun _ => h.apart.search_eq_some) x
  searchPrevRegion key x := by
    rw [searchPrevRegion_eq]
    refine h.bind_getRegion (P := fun x => ∃ cur, r.getRegion cur.id = some cur ∧
      cur.contains key = true ∧ x.stop = cur.startKey) (fun y => ?_) x
    rw [h.apart.searchPrev_eq_some]
    constructor
    · rintro ⟨cur, hcur, hcontains, hy, hstop⟩
      exact ⟨hy, cur, h.mem_tree.mp hcur, hcontains, hstop⟩
    · rintro ⟨hy, cur, hcur, hcontains, hstop⟩
      exact ⟨cur, h.mem_tree.mpr hcur, hcontains, hy, hstop⟩
  scanRange startKey endKey limit hrange := by
    refine ⟨r.tree.getOverlaps { id := 0, startKey := startKey, endKey := endKey }, ?_, ?_, ?_⟩
    · rw [RegionTree.getOverlaps_eq]
      exact RangeList.sorted_overlaps h.apart.sorted
    · intro x
      have hok : RegionInfo.RangeOk { id := 0, startKey := startKey, endKey := endKey } := hrange
      rw [h.apart.mem_getOverlaps hok.nonempty, h.mem_tree]
    · rw [scanRange_eq]
      -- Every region that is found is in the tree, and so the map has it.
      have hmap : ∀ regions : List RegionInfo, (∀ x ∈ regions, x ∈ r.tree) →
          (regions.map fun item => r.getRegion item.id) = regions.map some := by
        intro regions hregions
        exact map_congr_left fun x hx => h.getRegion_of_mem (hregions x hx)
      refine hmap _ fun x hx => ?_
      have hmem : x ∈ r.tree.getOverlaps { id := 0, startKey := startKey, endKey := endKey } := by
        unfold cut at hx
        split_ifs at hx
        · exact mem_of_mem_take hx
        · exact hx
      have hok : RegionInfo.RangeOk { id := 0, startKey := startKey, endKey := endKey } := hrange
      exact ((h.apart.mem_getOverlaps hok.nonempty).mp hmem).1

/-- After any calls of `SetRegion` with ranges that are not empty, none of which fails, the lookups
are exact. -/
theorem setAll_exactSearch (regions : List RegionInfo)
    (hregions : ∀ region ∈ regions, region.RangeOk) :
    ∃ r, RegionsInfo.setAll {} regions = .ok r ∧ r.ExactSearch := by
  obtain ⟨r, hrun, h⟩ := located_empty.setAll hregions
  exact ⟨r, hrun, h.exactSearch⟩

theorem setAll_exactSearch_three :
    ∃ r, RegionsInfo.setAll {} [{ id := 1, startKey := [1], endKey := [3] },
      { id := 2, startKey := [5] }, { id := 3, startKey := [2], endKey := [5] }] = .ok r ∧
      r.ExactSearch :=
  setAll_exactSearch _ (by decide)

end RegionsInfo

end TinyKV
