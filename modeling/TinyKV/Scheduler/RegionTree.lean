import Mathlib.Algebra.BigOperators.Group.List.Basic
import TinyKV.Scheduler.Region

/-!
# What the methods of the trees do

On trees of regions with disjoint ranges: `find` finds the region that has a key, `getOverlaps` the
regions that meet a range, `update` puts a region in the place of those, and `remove` takes one out.
-/

namespace TinyKV

open List

namespace RegionInfo

def stop (region : RegionInfo) : WithTop Bytes := if region.endKey = [] then ⊤ else region.endKey

/-- The ranges of two regions have a key in common. -/
abbrev Meets (x y : RegionInfo) : Prop := RangeList.Meets startKey stop x y

theorem contains_iff {region : RegionInfo} {key : Bytes} :
    region.contains key = true ↔ RangeList.Covers startKey stop region key := by
  unfold contains RangeList.Covers stop
  split_ifs with h <;> simp [h, WithTop.coe_lt_coe]

theorem WellFormed.nonempty {region : RegionInfo} (h : region.WellFormed) :
    (region.startKey : WithTop Bytes) < region.stop := by
  unfold stop
  split_ifs with hend
  · exact WithTop.coe_lt_top _
  · exact WithTop.coe_lt_coe.mpr (h.range.resolve_left hend)

end RegionInfo

namespace RegionTree

variable {t : RegionTree} {region x y : RegionInfo}

abbrev Apart (t : RegionTree) : Prop := RangeList.Apart RegionInfo.startKey RegionInfo.stop t

theorem find_eq : t.find region =
    RangeList.find RegionInfo.startKey RegionInfo.stop region.startKey t := by
  unfold find RangeList.find
  split
  · rename_i h
    rw [h, Option.filter_none]
  · rename_i result h
    rw [h, Option.filter_some]
    simp only [RegionInfo.contains_iff, decide_eq_true_eq]

theorem Apart.find_eq_some (h : t.Apart) : t.find region = some x ↔
    x ∈ t ∧ RangeList.Covers RegionInfo.startKey RegionInfo.stop x region.startKey := by
  rw [find_eq, RangeList.Apart.find_eq_some h]

theorem Apart.meets_of_find (h : t.Apart)
    (hregion : (region.startKey : WithTop Bytes) < region.stop) (hx : t.find region = some x) :
    x ∈ t ∧ region.Meets x := by
  obtain ⟨hx, hcovers⟩ := h.find_eq_some.mp hx
  exact ⟨hx, region.startKey, ⟨le_rfl, hregion⟩, hcovers⟩

theorem Apart.find_self (h : t.Apart) (hx : x ∈ t) : t.find x = some x :=
  h.find_eq_some.mpr ⟨hx, le_rfl, h.nonempty x hx⟩

theorem getOverlaps_eq : t.getOverlaps region =
    RangeList.overlaps RegionInfo.startKey RegionInfo.stop region t := by
  have hstart : ((t.find region).getD region).startKey =
      (t.find region).elim region.startKey RegionInfo.startKey := by
    cases t.find region <;> rfl
  rw [getOverlaps, hstart, find_eq]
  refine RangeList.takeWhile_eq_overlaps fun item => ?_
  unfold RegionInfo.stop
  split_ifs with hend <;> simp [hend]

theorem Apart.mem_getOverlaps (h : t.Apart)
    (hregion : (region.startKey : WithTop Bytes) < region.stop) :
    x ∈ t.getOverlaps region ↔ x ∈ t ∧ region.Meets x := by
  rw [getOverlaps_eq, RangeList.Apart.mem_overlaps h hregion]

theorem Apart.nodup_getOverlaps (h : t.Apart) : (t.getOverlaps region).Nodup := by
  rw [getOverlaps_eq]
  exact (RangeList.sorted_overlaps h.sorted).nodup

theorem foldl_delete (items : List RegionInfo) (t : RegionTree) :
    items.foldl (fun t item => OrderedList.delete RegionInfo.startKey item.startKey t) t =
      t.filter fun x => x.startKey ∉ items.map RegionInfo.startKey := by
  induction items generalizing t with
  | nil => simp
  | cons item items ih =>
    rw [foldl_cons, ih, OrderedList.delete, filter_filter]
    congr 1
    funext x
    rw [Bool.eq_iff_iff]
    simp [and_comm]

section

variable (h : t.Apart) (hregion : (region.startKey : WithTop Bytes) < region.stop)
include h hregion

theorem Apart.foldl_delete_getOverlaps :
    x ∈ (t.getOverlaps region).foldl
        (fun t item => OrderedList.delete RegionInfo.startKey item.startKey t) t ↔
      x ∈ t ∧ ¬ region.Meets x := by
  rw [foldl_delete, mem_filter, decide_eq_true_eq, mem_map]
  refine and_congr_right fun hx => not_congr ?_
  constructor
  · rintro ⟨o, ho, hkey⟩
    obtain ⟨hot, hmeets⟩ := (h.mem_getOverlaps hregion).mp ho
    rwa [← h.sorted.eq_of_key_eq hot hx hkey]
  · intro hmeets
    exact ⟨x, (h.mem_getOverlaps hregion).mpr ⟨hx, hmeets⟩, rfl⟩

theorem Apart.mem_update : x ∈ (t.update region).1 ↔ x = region ∨ x ∈ t ∧ ¬ region.Meets x := by
  rw [update, OrderedList.mem_replaceOrInsert, h.foldl_delete_getOverlaps hregion]
  refine or_congr_right ⟨fun hx => hx.1, fun hx => ⟨hx, fun hkey => ?_⟩⟩
  -- Ranges with the same start meet.
  refine hx.2 ⟨region.startKey, ⟨le_rfl, hregion⟩, hkey.le, ?_⟩
  rw [← hkey]
  exact h.nonempty x hx.1

theorem Apart.update : Apart (t.update region).1 := by
  refine RangeList.Apart.replaceOrInsert (h.subset ?_ ?_) hregion ?_
  · rw [foldl_delete]
    exact h.sorted.filter _
  · exact fun x hx => ((h.foldl_delete_getOverlaps hregion).mp hx).1
  · exact fun x hx hmeets => absurd hmeets ((h.foldl_delete_getOverlaps hregion).mp hx).2

end

theorem Apart.mem_remove (h : t.Apart) (hx : x ∈ t) : y ∈ t.remove x ↔ y ∈ t ∧ y ≠ x := by
  have hlength : ¬ t.length = 0 := fun hzero => by
    rw [length_eq_zero_iff.mp hzero] at hx
    cases hx
  simp only [remove, hlength, if_false, h.find_self hx, ne_eq, not_true_eq_false,
    OrderedList.mem_delete]
  exact and_congr_right fun hy => not_congr ⟨h.sorted.eq_of_key_eq hy hx, fun heq => by rw [heq]⟩

theorem Apart.remove_eq_self (h : t.Apart) (hx : (x.startKey : WithTop Bytes) < x.stop)
    (hid : ∀ y ∈ t, x.Meets y → y.id ≠ x.id) : t.remove x = t := by
  unfold remove
  split_ifs
  · rfl
  · split
    · rfl
    · rename_i result hresult
      obtain ⟨hmem, hmeets⟩ := h.meets_of_find hx hresult
      rw [if_pos (hid result hmem hmeets)]

theorem sorted_remove (h : OrderedList.Sorted RegionInfo.startKey t) :
    OrderedList.Sorted RegionInfo.startKey (t.remove x) := by
  unfold remove
  split_ifs
  · exact h
  · split
    · exact h
    · split_ifs
      · exact h
      · exact h.delete

end RegionTree

namespace RegionSubTree

variable {rst : RegionSubTree} {region x : RegionInfo}

theorem tree_update_of_mem (h : rst.tree.Apart) (hregion : region ∈ rst.tree) :
    (rst.update region).tree = rst.tree := by
  have hmap : ∀ x, (if x = region then region else x) = x := by
    intro x
    split_ifs with heq
    · exact heq.symm
    · rfl
  rw [update, h.find_self hregion]
  exact map_id'' hmap rst.tree

theorem find_eq_none (h : rst.tree.Apart)
    (hregion : (region.startKey : WithTop Bytes) < region.stop)
    (hfree : ∀ x ∈ rst.tree, ¬ region.Meets x) : rst.tree.find region = none := by
  cases hfind : rst.tree.find region with
  | none => rfl
  | some result =>
    obtain ⟨hmem, hmeets⟩ := h.meets_of_find hregion hfind
    exact absurd hmeets (hfree result hmem)

theorem mem_update_of_free (h : rst.tree.Apart)
    (hregion : (region.startKey : WithTop Bytes) < region.stop)
    (hfree : ∀ x ∈ rst.tree, ¬ region.Meets x) :
    x ∈ (rst.update region).tree ↔ x = region ∨ x ∈ rst.tree := by
  rw [update, find_eq_none h hregion hfree, h.mem_update hregion]
  exact or_congr_right ⟨fun hx => hx.1, fun hx => ⟨hx, hfree x hx⟩⟩

theorem update_spec (h : rst.tree.Apart) (hregion : (region.startKey : WithTop Bytes) < region.stop)
    (hfree : ∀ x ∈ rst.tree, region.Meets x → x = region) :
    (rst.update region).tree.Apart ∧
      ∀ x, x ∈ (rst.update region).tree ↔ x = region ∨ x ∈ rst.tree := by
  by_cases hmem : region ∈ rst.tree
  · rw [tree_update_of_mem h hmem]
    exact ⟨h, fun x => ⟨Or.inr, fun hx => hx.elim (fun heq => heq ▸ hmem) id⟩⟩
  · have hfree' : ∀ x ∈ rst.tree, ¬ region.Meets x := fun x hx hmeets =>
      hmem (hfree x hx hmeets ▸ hx)
    refine ⟨?_, fun x => mem_update_of_free h hregion hfree'⟩
    rw [update, find_eq_none h hregion hfree']
    exact h.update hregion

theorem remove_spec (h : rst.tree.Apart) (hregion : (region.startKey : WithTop Bytes) < region.stop)
    (hfree : ∀ x ∈ rst.tree, region.Meets x → x = region) :
    (rst.remove region).tree.Apart ∧
      ∀ x, x ∈ (rst.remove region).tree ↔ x ∈ rst.tree ∧ x ≠ region := by
  have htree : (rst.remove region).tree = rst.tree.remove region := by
    unfold remove
    split_ifs with hlength
    · rw [RegionTree.remove, if_pos hlength]
    · rfl
  have hmem : ∀ x, x ∈ rst.tree.remove region ↔ x ∈ rst.tree ∧ x ≠ region := by
    intro x
    by_cases hregion' : region ∈ rst.tree
    · exact h.mem_remove hregion'
    · rw [h.remove_eq_self hregion fun y hy hmeets => absurd (hfree y hy hmeets ▸ hy) hregion']
      exact ⟨fun hx => ⟨hx, fun heq => hregion' (heq ▸ hx)⟩, fun hx => hx.1⟩
  rw [htree]
  exact ⟨h.subset (RegionTree.sorted_remove h.sorted) fun x hx => ((hmem x).mp hx).1, hmem⟩

/-- The total size is that of the regions in the sub-tree. -/
def Sized (rst : RegionSubTree) : Prop :=
  rst.totalSize = int64 (rst.tree.map RegionInfo.approximateSize).sum

theorem sized_nil : Sized {} := by
  simp [Sized, int64]

variable (hsized : rst.Sized) (h : rst.tree.Apart)
  (hregion : (region.startKey : WithTop Bytes) < region.stop)
  (hfree : ∀ x ∈ rst.tree, region.Meets x → x = region)
include hsized h hregion hfree

theorem Sized.update : (rst.update region).Sized := by
  obtain ⟨happart, hmem⟩ := update_spec h hregion hfree
  by_cases hregion' : region ∈ rst.tree
  · have htotal : (rst.update region).totalSize = rst.totalSize := by
      have hzero : int64 0 = 0 := by decide
      rw [RegionSubTree.update, h.find_self hregion']
      simp only [sub_self, hzero]
      rw [hsized, int64_add_int64, add_zero]
    rw [Sized, htotal, tree_update_of_mem h hregion']
    exact hsized
  · -- The region is new in the sub-tree.
    have hfree' : ∀ x ∈ rst.tree, ¬ region.Meets x := fun x hx hmeets =>
      hregion' (hfree x hx hmeets ▸ hx)
    have htotal : (rst.update region).totalSize =
        int64 (rst.totalSize + region.approximateSize) := by
      rw [RegionSubTree.update, find_eq_none h hregion hfree']
    have hperm : (rst.update region).tree.Perm (region :: rst.tree) :=
      (perm_ext_iff_of_nodup happart.sorted.nodup
        (nodup_cons.mpr ⟨hregion', h.sorted.nodup⟩)).mpr fun x => by
          rw [hmem, mem_cons]
    rw [Sized, htotal, (hperm.map RegionInfo.approximateSize).sum_eq, hsized, int64_add_int64,
      map_cons, sum_cons, add_comm]

theorem Sized.remove (hzero : region.approximateSize = 0) : (rst.remove region).Sized := by
  obtain ⟨happart, hmem⟩ := remove_spec h hregion hfree
  have htotal : (rst.remove region).totalSize = rst.totalSize := by
    unfold RegionSubTree.remove
    split_ifs <;> rfl
  have hsum : ((rst.remove region).tree.map RegionInfo.approximateSize).sum =
      (rst.tree.map RegionInfo.approximateSize).sum := by
    by_cases hregion' : region ∈ rst.tree
    · have hperm : rst.tree.Perm (region :: (rst.remove region).tree) :=
        (perm_ext_iff_of_nodup h.sorted.nodup (nodup_cons.mpr
          ⟨fun hx => ((hmem region).mp hx).2 rfl, happart.sorted.nodup⟩)).mpr fun x => by
            rw [mem_cons, hmem]
            by_cases hx : x = region
            · simp [hx, hregion']
            · simp [hx]
      rw [(hperm.map RegionInfo.approximateSize).sum_eq, map_cons, sum_cons, hzero,
        zero_add]
    · have htree : (rst.remove region).tree = rst.tree :=
        happart.sorted.ext h.sorted fun x => by
          rw [hmem]
          exact ⟨fun hx => hx.1, fun hx => ⟨hx, fun heq => hregion' (heq ▸ hx)⟩⟩
      rw [htree]
  rw [Sized, htotal, hsum]
  exact hsized

end RegionSubTree

end TinyKV
