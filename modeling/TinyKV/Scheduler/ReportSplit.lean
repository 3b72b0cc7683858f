import TinyKV.RangeList
import TinyKV.Storage.RegionReader

/-!
# Reports of splits

`checkSplitRegion` and `checkSplitRegions` of `scheduler/server/cluster_worker.go` check the regions
of a reported split, which are to tile the range of the region that was split (`TilesOrigin`).
-/

namespace TinyKV.ReportSplit

inductive SplitErr
  | invalidSplitRegion
deriving DecidableEq, Repr

def checkSplitRegion (left right : Option Region) : Except SplitErr Unit :=
  match left, right with
  | some left, some right =>
    if left.endKey ≠ right.startKey then .error .invalidSplitRegion
    else if right.endKey.length = 0 ∨ left.startKey < right.endKey then .ok ()
    else .error .invalidSplitRegion
  | _, _ => .error .invalidSplitRegion

def checkNeighbours : Region → List Region → Except SplitErr Unit
  | _, [] => .ok ()
  | left, right :: regions =>
    if left.endKey ≠ right.startKey then .error .invalidSplitRegion
    else if right.endKey.length ≠ 0 ∧ right.endKey ≤ left.startKey then .error .invalidSplitRegion
    else checkNeighbours right regions

def checkSplitRegions : List Region → Except SplitErr Unit
  | left :: right :: regions => checkNeighbours left (right :: regions)
  | _ => .error .invalidSplitRegion

def originRegion (left right : Region) : Region := { right with startKey := left.startKey }

def handleReportSplit (left right : Option Region) : Except SplitErr Region := do
  checkSplitRegion left right
  return originRegion (left.getD {}) (right.getD {})

variable {regions : List Region} {left right first last : Region} {key : Bytes}

/-- Every region has a range that is not empty, and only the last one may have no end. -/
structure Sound (regions : List Region) : Prop where
  nonempty : ∀ r ∈ regions, r.endKey = [] ∨ r.startKey < r.endKey
  bounded : ∀ r ∈ regions.dropLast, r.endKey ≠ []

structure TilesOrigin (regions : List Region) (origin : Region) : Prop extends Sound regions where
  disjoint : regions.Pairwise fun x y => ∀ key, ¬ (x.Contains key ∧ y.Contains key)
  union : ∀ key, (∃ r ∈ regions, r.Contains key) ↔ origin.Contains key

def stop (region : Region) : WithTop Bytes := if region.endKey = [] then ⊤ else region.endKey

theorem lt_stop_iff {region : Region} :
    (key : WithTop Bytes) < stop region ↔ region.endKey = [] ∨ key < region.endKey := by
  unfold stop
  split_ifs with hend
  · simp [hend]
  · rw [WithTop.coe_lt_coe, or_iff_right hend]

theorem covers_iff {region : Region} :
    RangeList.Covers Region.startKey stop region key ↔ region.Contains key := by
  rw [RangeList.Covers, lt_stop_iff, Region.Contains]

theorem tiles_of_checkNeighbours (h : checkNeighbours left regions = .ok ())
    (hbounded : ∀ r ∈ (left :: regions).dropLast, r.endKey ≠ [])
    (hlast : (left :: regions).getLast? = some last) :
    RangeList.Tiles Region.startKey stop left.startKey (left :: regions) (stop last) := by
  induction regions generalizing left with
  | nil =>
    obtain rfl : left = last := Option.some.inj hlast
    exact ⟨rfl, rfl⟩
  | cons right regions ih =>
    rw [checkNeighbours] at h
    split_ifs at h with hkeys hends
    have hstop : stop left = right.startKey := by
      rw [stop, if_neg (hbounded left List.mem_cons_self), not_not.mp hkeys]
    refine ⟨rfl, ?_⟩
    rw [hstop]
    exact ih h (fun r hr => hbounded r (List.mem_cons_of_mem left hr)) hlast

theorem TilesOrigin.of_checkNeighbours (h : checkNeighbours first regions = .ok ())
    (hsound : Sound (first :: regions)) (hlast : (first :: regions).getLast? = some last) :
    TilesOrigin (first :: regions) (originRegion first last) := by
  have htiles := tiles_of_checkNeighbours h hsound.bounded hlast
  have hne : ∀ r ∈ first :: regions, (r.startKey : WithTop Bytes) < stop r :=
    fun r hr => lt_stop_iff.mpr (hsound.nonempty r hr)
  refine ⟨hsound, ?_, fun key => ?_⟩
  · refine (htiles.pairwise_not_meets hne).imp fun {x y} hmeets key hkey => hmeets ⟨key, ?_⟩
    exact ⟨covers_iff.mpr hkey.1, covers_iff.mpr hkey.2⟩
  · have hcovers := htiles.exists_covers hne (k := key)
    simp only [covers_iff] at hcovers
    rw [hcovers, WithTop.coe_le_coe, lt_stop_iff]
    rfl

theorem checkSplitRegions_pair (h : checkSplitRegion (some left) (some right) = .ok ()) :
    checkSplitRegions [left, right] = .ok () := by
  rw [checkSplitRegion] at h
  split_ifs at h with hkeys hends
  rw [checkSplitRegions, checkNeighbours, if_neg hkeys, if_neg, checkNeighbours]
  rintro ⟨hend, hle⟩
  exact absurd (hends.resolve_left hend) (not_lt.mpr hle)

theorem tilesOrigin_iff (h : checkSplitRegions regions = .ok ())
    (hfirst : regions.head? = some first) (hlast : regions.getLast? = some last) :
    TilesOrigin regions (originRegion first last) ↔ Sound regions := by
  refine ⟨TilesOrigin.toSound, fun hsound => ?_⟩
  rcases regions with _ | ⟨left, _ | ⟨right, regions⟩⟩
  · cases h
  · cases h
  · obtain rfl : left = first := Option.some.inj hfirst
    exact TilesOrigin.of_checkNeighbours h hsound hlast

theorem handleReportSplit_tiles {left right : Option Region} {origin : Region}
    (h : handleReportSplit left right = .ok origin) : ∃ l r, left = some l ∧ right = some r ∧
      (TilesOrigin [l, r] origin ↔ Sound [l, r]) := by
  rcases left with _ | l
  · cases h
  rcases right with _ | r
  · cases h
  refine ⟨l, r, rfl, rfl, ?_⟩
  cases hcheck : checkSplitRegion (some l) (some r) with
  | error err =>
    rw [handleReportSplit, hcheck] at h
    cases h
  | ok _ =>
    rw [handleReportSplit, hcheck] at h
    obtain rfl := Except.ok.inj h
    exact tilesOrigin_iff (checkSplitRegions_pair hcheck) rfl rfl

/-- The regions of a split that is accepted tile the range of the region that was split exactly if
they are sound. -/
theorem checkSplit_tiles (regions : List Region) (first last left right : Region) :
    (checkSplitRegions regions = .ok () → regions.head? = some first →
      regions.getLast? = some last →
        (TilesOrigin regions (originRegion first last) ↔ Sound regions)) ∧
    (checkSplitRegion (some left) (some right) = .ok () →
      (TilesOrigin [left, right] (originRegion left right) ↔ Sound [left, right])) :=
  ⟨fun h hfirst hlast => tilesOrigin_iff h hfirst hlast,
    fun h => tilesOrigin_iff (checkSplitRegions_pair h) rfl rfl⟩

theorem checkSplit_tiles_two :
    checkSplitRegions [⟨[1], [2]⟩, ⟨[2], []⟩] = .ok () ∧
      checkSplitRegion (some ⟨[1], [2]⟩) (some ⟨[2], []⟩) = .ok () ∧
        TilesOrigin [⟨[1], [2]⟩, ⟨[2], []⟩] ⟨[1], []⟩ := by
  have htiles := checkSplit_tiles [⟨[1], [2]⟩, ⟨[2], []⟩] ⟨[1], [2]⟩ ⟨[2], []⟩ ⟨[1], [2]⟩ ⟨[2], []⟩
  exact ⟨rfl, rfl, (htiles.1 rfl rfl rfl).mpr ⟨by decide, by decide⟩⟩

theorem checkSplit_accepts_unsound :
    (checkSplitRegions [⟨[1], [3]⟩, ⟨[3], [2]⟩] = .ok () ∧
      checkSplitRegion (some ⟨[1], [3]⟩) (some ⟨[3], [2]⟩) = .ok () ∧
        ¬ TilesOrigin [⟨[1], [3]⟩, ⟨[3], [2]⟩] (originRegion ⟨[1], [3]⟩ ⟨[3], [2]⟩)) ∧
    checkSplitRegions [⟨[1], []⟩, ⟨[], []⟩] = .ok () ∧
      checkSplitRegion (some ⟨[1], []⟩) (some ⟨[], []⟩) = .ok () ∧
        ¬ TilesOrigin [⟨[1], []⟩, ⟨[], []⟩] (originRegion ⟨[1], []⟩ ⟨[], []⟩) := by
  refine ⟨⟨rfl, rfl, fun h => ?_⟩, rfl, rfl, fun h => ?_⟩
  · exact absurd (h.nonempty ⟨[3], [2]⟩ (by decide)) (by decide)
  · exact absurd rfl (h.bounded ⟨[1], []⟩ (by decide))

end TinyKV.ReportSplit
