import TinyKV.RankTreeRuns
import TinyKV.Scheduler.RegionSearch

/-!
# Random regions of a range

`RandomRegion` of `scheduler/server/core/region_tree.go` asks the B-tree for the positions of two
keys, goes one position back if the region there reaches over the first key, and takes a random
position in between.
-/

namespace TinyKV.RandomRegion

open List

def less (x y : RegionInfo) : Bool := x.startKey < y.startKey

instance less_isStrictWeakOrder : IsStrictWeakOrder RegionInfo fun x y => less x y = true where
  irrefl x h := by simp [less] at h
  trans x y z hxy hyz := by
    simp only [less, decide_eq_true_eq] at *
    exact hxy.trans hyz
  incomp_trans x y z hxy hyz := by
    simp only [less, decide_eq_true_eq, not_lt] at *
    exact ⟨hyz.1.trans hxy.1, hxy.2.trans hyz.2⟩

/-- The B-tree of a `regionTree`, with the regions that it holds. -/
structure Tree where
  btree : RankTree.BTree RegionInfo
  items : List RegionInfo
  holds : btree.Holds less items

def startIndex (t : Tree) (startKey : Bytes) : Go ℤ := do
  let (startRegion, startIndex) ← t.btree.getWithIndex less (RegionTree.keyRegion startKey)
  if startIndex ≠ 0 ∧ startRegion = none then
    -- The items are not contiguous, so that the one before may end before the key.
    let region ← Go.deref (← t.btree.getAt (startIndex - 1))
    return if region.contains startKey then startIndex - 1 else startIndex
  else return startIndex

def endIndex (t : Tree) (endKey : Bytes) : Go ℤ :=
  if endKey ≠ [] then Prod.snd <$> t.btree.getWithIndex less (RegionTree.keyRegion endKey)
  else .ok t.btree.len

def randomRegion (t : Tree) (startKey endKey : Bytes) (intn : ℕ → ℕ) :
    Go (Option RegionInfo) :=
  if t.btree.len = 0 then .ok none
  else do
    let startIndex ← startIndex t startKey
    let endIndex ← endIndex t endKey
    if endIndex ≤ startIndex then return none
    else
      some <$> Go.deref (← t.btree.getAt (intn (endIndex - startIndex).toNat + startIndex))

def anyRegion (t : RegionTree) (intn : ℕ → ℕ) : Option RegionInfo :=
  if t.length = 0 then none else t[intn t.length]?

def Intn (intn : ℕ → ℕ) : Prop := ∀ n, 0 < n → intn n < n

variable {t : Tree} {startKey endKey : Bytes} {x y : RegionInfo} {i : ℕ}

theorem Tree.sorted (t : Tree) : OrderedList.Sorted RegionInfo.startKey t.items :=
  t.holds.sorted.imp fun h => of_decide_eq_true h

theorem Tree.len_eq (t : Tree) : t.btree.len = t.items.length := t.holds.length

theorem Tree.getAt_eq (t : Tree) (k : ℕ) : t.btree.getAt k = .ok t.items[k]? := by
  rw [t.holds.getAt_eq, if_pos (Int.natCast_nonneg k), Int.toNat_natCast]

theorem Tree.getWithIndex_eq (t : Tree) (key : Bytes) :
    t.btree.getWithIndex less (RegionTree.keyRegion key) =
      .ok (OrderedList.lookup RegionInfo.startKey key t.items,
        (OrderedList.rank RegionInfo.startKey key t.items : ℤ)) := by
  have hincomp : ∀ y, RankTree.Incomp less (RegionTree.keyRegion key) y ↔ y.startKey = key := by
    intro y
    unfold RankTree.Incomp less
    rw [decide_eq_false_iff_not, decide_eq_false_iff_not, not_lt, not_lt]
    exact ⟨fun h => le_antisymm h.2 h.1, fun h => ⟨h.ge, h.le⟩⟩
  have hfind : t.items.find? (fun y => RankTree.Incomp less (RegionTree.keyRegion key) y) =
      OrderedList.lookup RegionInfo.startKey key t.items :=
    congrArg (t.items.find? ·) (funext fun y => decide_eq_decide.mpr (hincomp y))
  have hcount : t.items.countP (fun y => less y (RegionTree.keyRegion key)) =
      OrderedList.rank RegionInfo.startKey key t.items := by
    rw [countP_eq_length_filter, OrderedList.rank]
    exact congrArg (fun p => (t.items.filter p).length)
      (funext fun y => decide_eq_decide.mpr Iff.rfl)
  rw [t.holds.getWithIndex_eq, hfind, hcount]

theorem startKey_le_of_contains (h : RegionTree.Apart t.items) (hx : x ∈ t.items)
    (hcontains : x.contains startKey = true) (hy : y ∈ t.items) (hle : y.startKey ≤ startKey) :
    y.startKey ≤ x.startKey := by
  by_contra hnot
  have hstop : x.stop ≤ y.startKey := h.le_of_lt hx hy (not_le.mp hnot)
  have hlt : (startKey : WithTop Bytes) < x.stop := (RegionInfo.contains_iff.mp hcontains).2
  exact absurd (WithTop.coe_lt_coe.mp (hlt.trans_le hstop)) (not_lt.mpr hle)

theorem startKey_lt (hx : t.items[i]? = some x) {j : ℕ} (hy : t.items[j]? = some y) (hij : i < j) :
    x.startKey < y.startKey := Btree.key_lt_key t.sorted hij hx hy

theorem rank_le_iff (h : RegionTree.Apart t.items) (startKey : Bytes) (hx : t.items[i]? = some x) :
    OrderedList.rank RegionInfo.startKey startKey t.items ≤ i ↔ startKey ≤ x.startKey := by
  rw [← not_lt, h.sorted.lt_rank_iff hx, not_lt]

theorem succ_eq_rank (h : RegionTree.Apart t.items) (startKey : Bytes)
    (hx : t.items[i]? = some x) (hcontains : x.contains startKey = true)
    (hlt : i < OrderedList.rank RegionInfo.startKey startKey t.items) :
    i + 1 = OrderedList.rank RegionInfo.startKey startKey t.items := by
  by_contra hne
  have hlength : OrderedList.rank RegionInfo.startKey startKey t.items ≤ t.items.length :=
    OrderedList.rank_le_length
  have hnext : t.items[i + 1]? = some t.items[i + 1] := getElem?_eq_getElem (by omega)
  have hless : t.items[i + 1].startKey < startKey := by
    rw [← not_le, ← rank_le_iff h startKey hnext]
    omega
  have hle := startKey_le_of_contains h (mem_of_getElem? hx) hcontains
    (mem_of_getElem? hnext) hless.le
  exact absurd (startKey_lt hx hnext (Nat.lt_succ_self i)) (not_lt.mpr hle)

theorem startIndex_spec (h : RegionTree.Apart t.items) (startKey : Bytes) :
    ∃ start : ℕ, startIndex t startKey = .ok (start : ℤ) ∧ ∀ i x, t.items[i]? = some x →
      (start ≤ i ↔ startKey ≤ x.startKey ∨ x.contains startKey = true) := by
  have hlength : OrderedList.rank RegionInfo.startKey startKey t.items ≤ t.items.length :=
    OrderedList.rank_le_length
  have hrank := fun i x (hx : t.items[i]? = some x) => rank_le_iff h startKey hx
  have hlast := fun i x (hx : t.items[i]? = some x) => succ_eq_rank h startKey hx
  unfold startIndex
  rw [t.getWithIndex_eq, Go.ok_bind]
  generalize OrderedList.rank RegionInfo.startKey startKey t.items = rank
    at hrank hlast hlength ⊢
  dsimp only
  simp only [Nat.cast_ne_zero]
  by_cases hback : rank ≠ 0 ∧ OrderedList.lookup RegionInfo.startKey startKey t.items = none
  · have hpos := hback.1
    have hprev : t.items[rank - 1]? = some t.items[rank - 1] :=
      getElem?_eq_getElem (by omega)
    have hcast : ((rank : ℤ) - 1) = (rank - 1 : ℕ) := by omega
    rw [if_pos hback, hcast, t.getAt_eq, hprev]
    cases hcontains : t.items[rank - 1].contains startKey with
    | true =>
      refine ⟨rank - 1, by simp [Go.deref, hcontains], fun i x hx => ?_⟩
      rw [← hrank i x hx]
      constructor
      · intro hle
        rcases Nat.eq_or_lt_of_le hle with rfl | hlt
        · rw [hprev] at hx
          exact .inr (Option.some.inj hx ▸ hcontains)
        · exact .inl (by omega)
      · rintro (hle | hx')
        · omega
        · have := hlast i x hx hx'
          omega
    | false =>
      refine ⟨rank, by simp [Go.deref, hcontains], fun i x hx => ?_⟩
      rw [← hrank i x hx, or_iff_left_of_imp]
      intro hx'
      by_contra hlt
      obtain rfl : i = rank - 1 := by
        have := hlast i x hx hx'
        omega
      rw [hprev] at hx
      rw [Option.some.inj hx, hx'] at hcontains
      cases hcontains
  · rw [if_neg hback]
    refine ⟨rank, rfl, fun i x hx => ?_⟩
    rw [← hrank i x hx, or_iff_left_of_imp]
    intro hcontains
    -- There is no region before the key, or one starts at the key, which then is the region.
    by_cases hzero : rank = 0
    · omega
    · obtain ⟨y, hy⟩ := Option.ne_none_iff_exists'.mp fun hnone => hback ⟨hzero, hnone⟩
      obtain ⟨hy, hkey⟩ := h.sorted.lookup_eq_some.mp hy
      rw [hrank i x hx, ← hkey]
      exact startKey_le_of_contains h (mem_of_getElem? hx) hcontains hy hkey.le

theorem endIndex_spec (t : Tree) (startKey endKey : Bytes) :
    ∃ stop : ℕ, endIndex t endKey = .ok (stop : ℤ) ∧ stop ≤ t.items.length ∧
      ∀ i x, t.items[i]? = some x → (i < stop ↔ (x.startKey : WithTop Bytes) <
        RegionInfo.stop { id := 0, startKey := startKey, endKey := endKey }) := by
  unfold endIndex RegionInfo.stop
  by_cases hend : endKey = []
  · refine ⟨t.items.length, by simp [hend, t.len_eq], le_rfl, fun i x hx => ?_⟩
    simp only [hend, if_true, WithTop.coe_lt_top, iff_true]
    exact (List.getElem?_eq_some_iff.mp hx).1
  · refine ⟨OrderedList.rank RegionInfo.startKey endKey t.items, ?_, OrderedList.rank_le_length,
      fun i x hx => ?_⟩
    · rw [if_pos hend, t.getWithIndex_eq]
      rfl
    · rw [if_neg hend, WithTop.coe_lt_coe]
      exact t.sorted.lt_rank_iff hx

theorem meets_iff_position (h : RegionTree.Apart t.items)
    (hrange : endKey = [] ∨ startKey < endKey) :
    ∃ start stop : ℕ, startIndex t startKey = .ok (start : ℤ) ∧
      endIndex t endKey = .ok (stop : ℤ) ∧
      stop ≤ t.items.length ∧ ∀ i x, t.items[i]? = some x →
        (start ≤ i ∧ i < stop ↔ RegionInfo.Meets
          { id := 0, startKey := startKey, endKey := endKey } x) := by
  obtain ⟨start, hstart, hfirst⟩ := startIndex_spec h startKey
  obtain ⟨stop, hstop, hle, hlast⟩ := endIndex_spec t startKey endKey
  refine ⟨start, stop, hstart, hstop, hle, fun i x hx => ?_⟩
  have hok : RegionInfo.RangeOk { id := 0, startKey := startKey, endKey := endKey } := hrange
  have hnonempty := h.nonempty x (mem_of_getElem? hx)
  rw [hfirst i x hx, hlast i x hx]
  refine Iff.trans (and_congr_left fun _ => ?_) (RangeList.meets_iff hok.nonempty hnonempty).symm
  -- The region ends after the key if it starts there or after, or if it has the key.
  rw [RegionInfo.contains_iff]
  constructor
  · rintro (hge | hcovers)
    · exact (WithTop.coe_le_coe.mpr hge).trans_lt hnonempty
    · exact hcovers.2
  · intro hlt
    rcases le_total startKey x.startKey with hge | hge
    · exact .inl hge
    · exact .inr ⟨hge, hlt⟩

theorem randomRegion_eq {start stop : ℕ} (hstart : startIndex t startKey = .ok (start : ℤ))
    (hstop : endIndex t endKey = .ok (stop : ℤ)) (hle : stop ≤ t.items.length) {intn : ℕ → ℕ}
    (hintn : Intn intn) :
    randomRegion t startKey endKey intn =
      .ok (if start < stop then t.items[intn (stop - start) + start]? else none) := by
  unfold randomRegion
  rw [t.len_eq]
  split_ifs with hlen hlt
  · omega
  · rfl
  · rw [hstart, hstop, Go.ok_bind, Go.ok_bind, if_neg (by omega)]
    have hindex : intn (stop - start) + start < t.items.length := by
      have := hintn (stop - start) (by omega)
      omega
    have hsub : ((stop : ℤ) - start).toNat = stop - start := by omega
    rw [hsub, ← Nat.cast_add, t.getAt_eq, getElem?_eq_getElem hindex]
    rfl
  · rw [hstart, hstop, Go.ok_bind, Go.ok_bind, if_pos (by omega)]
    rfl

theorem randomRegion_nil (t : Tree) {intn : ℕ → ℕ} (hintn : Intn intn) :
    randomRegion t [] [] intn = .ok (anyRegion t.items intn) := by
  have hrank : OrderedList.rank RegionInfo.startKey [] t.items = 0 := by
    simp [OrderedList.rank]
  have hstart : startIndex t [] = .ok ((0 : ℕ) : ℤ) := by
    unfold startIndex
    rw [t.getWithIndex_eq, hrank, Go.ok_bind]
    rfl
  have hstop : endIndex t [] = .ok (t.items.length : ℤ) := by
    rw [endIndex, if_neg (by simp), t.len_eq]
  rw [randomRegion_eq hstart hstop le_rfl hintn, anyRegion]
  by_cases hempty : t.items.length = 0
  · rw [if_neg (by omega), if_pos hempty]
  · rw [if_pos (by omega), if_neg hempty]
    rfl

/-- `RandomRegion` returns nil exactly if no region meets the range, it returns only regions that
do, and it can return each of them. -/
theorem randomRegion_covers (t : Tree) (h : RegionTree.Apart t.items) (startKey endKey : Bytes)
    (hrange : endKey = [] ∨ startKey < endKey) :
    (∀ intn, Intn intn → ∃ found, randomRegion t startKey endKey intn = .ok found ∧
      (found = none ↔ ∀ x ∈ t.items, ¬ RegionInfo.Meets
        { id := 0, startKey := startKey, endKey := endKey } x) ∧
      ∀ x, found = some x → x ∈ t.items ∧ RegionInfo.Meets
        { id := 0, startKey := startKey, endKey := endKey } x) ∧
    ∀ x ∈ t.items, RegionInfo.Meets { id := 0, startKey := startKey, endKey := endKey } x →
      ∃ intn, Intn intn ∧ randomRegion t startKey endKey intn = .ok (some x) := by
  obtain ⟨start, stop, hstart, hstop, hle, hmeets⟩ := meets_iff_position h hrange
  constructor
  · intro intn hintn
    refine ⟨_, randomRegion_eq hstart hstop hle hintn, ?_⟩
    split_ifs with hlt
    · have hchoice := hintn (stop - start) (by omega)
      have hget : t.items[intn (stop - start) + start]? =
          some t.items[intn (stop - start) + start] := getElem?_eq_getElem (by omega)
      have hmem := mem_of_getElem? hget
      have hfound := (hmeets _ _ hget).mp ⟨by omega, by omega⟩
      rw [hget]
      refine ⟨⟨by simp, fun hnone => absurd hfound (hnone _ hmem)⟩, ?_⟩
      intro x hx
      obtain rfl := Option.some.inj hx
      exact ⟨hmem, hfound⟩
    · refine ⟨⟨fun _ x hx hmeets' => ?_, fun _ => rfl⟩, by simp⟩
      obtain ⟨i, hi⟩ := List.getElem?_of_mem hx
      have hpos := (hmeets i x hi).mpr hmeets'
      omega
  · intro x hx hmeets'
    obtain ⟨i, hi⟩ := List.getElem?_of_mem hx
    obtain ⟨hge, hlt⟩ := (hmeets i x hi).mpr hmeets'
    -- The choice of the region is the distance of its position from the first one.
    have hintn : Intn fun n => if n = stop - start then i - start else 0 := by
      intro n hn
      dsimp only
      split_ifs <;> omega
    refine ⟨_, hintn, ?_⟩
    rw [randomRegion_eq hstart hstop hle hintn, if_pos (by omega), if_pos rfl,
      Nat.sub_add_cancel hge, hi]

def gapRegions : List RegionInfo :=
  [{ id := 1, startKey := [1], endKey := [3] }, { id := 2, startKey := [5], endKey := [7] },
    { id := 3, startKey := [7] }]

def gapTree : Tree where
  btree :=
    { degree := 2
      length := 3
      root := some (.mk [{ id := 2, startKey := [5], endKey := [7] }]
        [.mk [{ id := 1, startKey := [1], endKey := [3] }] [] [],
          .mk [{ id := 3, startKey := [7] }] [] []] [1, 3]) }
  items := gapRegions
  holds := by
    refine ⟨le_rfl, .some 1 _ ?_ (by simp) (by simp), rfl, ?_⟩
    · exact ⟨rfl, rfl, by simp [RankTree.Node.Good, RankTree.Node.children,
        RankTree.Node.indices]⟩
    · unfold RankTree.Sorted less
      decide

theorem apart_gapTree : RegionTree.Apart gapTree.items :=
  RangeList.apart_of_pairwise (by decide) (by decide)

theorem randomRegion_covers_gapTree :
    (∃ intn, Intn intn ∧ randomRegion gapTree [2] [6] intn =
      .ok (some { id := 1, startKey := [1], endKey := [3] })) ∧
    ∃ intn, Intn intn ∧ randomRegion gapTree [2] [6] intn =
      .ok (some { id := 2, startKey := [5], endKey := [7] }) := by
  obtain ⟨-, hcovers⟩ := randomRegion_covers gapTree apart_gapTree [2] [6] (by decide)
  exact ⟨hcovers _ (by decide) ⟨[2], ⟨by decide, by decide⟩, by decide, by decide⟩,
    hcovers _ (by decide) ⟨[5], ⟨by decide, by decide⟩, by decide, by decide⟩⟩

end TinyKV.RandomRegion
