import TinyKV.Coprocessor.RowCodec
import TinyKV.Heap
import TinyKV.OrderedList

/-!
# The heap of TopN

`kv/coprocessor/topn.go`.
-/

namespace TinyKV

open List

structure SortRow where
  key : List Datum
  data : List Bytes := []
deriving DecidableEq, Repr

structure ByItem where
  desc : Bool
deriving DecidableEq, Repr

structure TopNHeap where
  orderByItems : List ByItem
  rows : List SortRow := []
  err : Option String := none
  totalCount : ℕ
  heapSize : ℕ := 0
deriving DecidableEq, Repr

abbrev CompareDatum := Datum → Datum → Except String ℤ

namespace TopNHeap

variable (cmp : CompareDatum)

def compareKeys : List ByItem → ℕ → SortRow → SortRow → Go (Except String ℤ)
  | [], _, _, _ => return .ok 0
  | item :: items, index, r₁, r₂ => do
    let v₁ ← Go.index r₁.key index
    let v₂ ← Go.index r₂.key index
    match cmp v₁ v₂ with
    | .error err => return .error err
    | .ok ret =>
      let ret := if item.desc then -ret else ret
      if ret < 0 ∨ ret > 0 then return .ok ret
      else compareKeys items (index + 1) r₁ r₂

def lessBy (t : TopNHeap) (test : ℤ → Bool) (i j : ℕ) : Go (TopNHeap × Bool) := do
  let r₁ ← Go.index t.rows i
  let r₂ ← Go.index t.rows j
  match ← compareKeys cmp t.orderByItems 0 r₁ r₂ with
  | .error err => return ({ t with err := some err }, true)
  | .ok ret => return (t, test ret)

def sorterLess (t : TopNHeap) (i j : ℕ) : Go (TopNHeap × Bool) := t.lessBy cmp (· < 0) i j

def less (t : TopNHeap) (i j : ℕ) : Go (TopNHeap × Bool) := t.lessBy cmp (· > 0) i j

def swap (t : TopNHeap) (i j : ℕ) : Go TopNHeap := do
  let x ← Go.index t.rows i
  let y ← Go.index t.rows j
  return { t with rows := Heap.exchange t.rows i j x y }

def interface : Heap.Interface TopNHeap where
  len t := t.heapSize
  less := less cmp
  swap := swap

def push (t : TopNHeap) (row : SortRow) : TopNHeap :=
  { t with rows := t.rows ++ [row], heapSize := t.heapSize + 1 }

def tryToAddRow (t : TopNHeap) (row : SortRow) : Go (TopNHeap × Bool) := do
  if t.heapSize = t.totalCount then
    let t := { t with rows := t.rows ++ [row] }
    let (t, less) ← t.less cmp 0 t.heapSize
    let t ← if less then do
        let t ← t.swap 0 t.heapSize
        Heap.fix (interface cmp) t 0
      else pure t
    let rows ← Go.slice t.rows 0 t.heapSize
    return ({ t with rows := rows }, less)
  else
    let t ← Heap.push (interface cmp) (t.push row)
    return (t, true)

def addRows : List SortRow → TopNHeap → Go TopNHeap
  | [], t => return t
  | row :: rows, t => do
    let (t, _) ← t.tryToAddRow cmp row
    addRows rows t

def Sorts (sort : TopNHeap → Go TopNHeap) : Prop :=
  ∀ (t : TopNHeap) (le : SortRow → SortRow → Prop), (∀ x y, le x y ∨ le y x) →
    (∀ x y z, le x y → le y z → le x z) →
    (∀ (rows : List SortRow) (i j : ℕ) (x y : SortRow), rows.Perm t.rows → rows[i]? = some x →
      rows[j]? = some y → ∃ less, sorterLess cmp { t with rows := rows } i j =
        .ok ({ t with rows := rows }, less) ∧ (less = true ↔ ¬ le y x)) →
    ∃ rows, sort t = .ok { t with rows := rows } ∧ rows.Perm t.rows ∧ rows.Pairwise le

end TopNHeap

/-- What is assumed of `CompareDatum`: it compares by a total preorder, without an error. -/
structure TotalCompare (cmp : CompareDatum) where
  le : Datum → Datum → Prop
  total : ∀ a b, le a b ∨ le b a
  trans : ∀ a b c, le a b → le b c → le a c
  compare_eq : ∀ a b, ∃ ret, cmp a b = .ok ret ∧ (ret ≤ 0 ↔ le a b) ∧ (0 ≤ ret ↔ le b a)

namespace TotalCompare

variable {cmp : CompareDatum} (C : TotalCompare cmp) {items : List ByItem} {index : ℕ}
  {x y z : SortRow}

def itemLe (item : ByItem) (a b : Datum) : Prop := if item.desc then C.le b a else C.le a b

theorem itemLe_total (item : ByItem) (a b : Datum) : C.itemLe item a b ∨ C.itemLe item b a := by
  unfold itemLe
  split_ifs
  · exact C.total b a
  · exact C.total a b

theorem itemLe_trans (item : ByItem) {a b c : Datum} (h : C.itemLe item a b)
    (h' : C.itemLe item b c) : C.itemLe item a c := by
  unfold itemLe at *
  split_ifs at *
  · exact C.trans c b a h' h
  · exact C.trans a b c h h'

def rowLe : List ByItem → ℕ → SortRow → SortRow → Prop
  | [], _, _, _ => True
  | item :: items, index, x, y =>
    C.itemLe item (x.key.getD index .null) (y.key.getD index .null) ∧
      (C.itemLe item (y.key.getD index .null) (x.key.getD index .null) →
        rowLe items (index + 1) x y)

theorem rowLe_total (items : List ByItem) (index : ℕ) (x y : SortRow) :
    C.rowLe items index x y ∨ C.rowLe items index y x := by
  induction items generalizing index with
  | nil => exact .inl trivial
  | cons item items ih =>
    by_cases hxy : C.itemLe item (x.key.getD index .null) (y.key.getD index .null)
    · by_cases hyx : C.itemLe item (y.key.getD index .null) (x.key.getD index .null)
      · exact (ih (index + 1)).imp (fun h => ⟨hxy, fun _ => h⟩) fun h => ⟨hyx, fun _ => h⟩
      · exact .inl ⟨hxy, fun h => absurd h hyx⟩
    · exact .inr ⟨(C.itemLe_total item _ _).resolve_left hxy, fun h => absurd h hxy⟩

theorem rowLe_trans (h : C.rowLe items index x y) (h' : C.rowLe items index y z) :
    C.rowLe items index x z := by
  induction items generalizing index with
  | nil => trivial
  | cons item items ih =>
    refine ⟨C.itemLe_trans item h.1 h'.1, fun hback => ?_⟩
    exact ih (h.2 (C.itemLe_trans item h'.1 hback)) (h'.2 (C.itemLe_trans item hback h.1))

theorem compareKeys_eq (hx : index + items.length ≤ x.key.length)
    (hy : index + items.length ≤ y.key.length) :
    ∃ ret, TopNHeap.compareKeys cmp items index x y = .ok (.ok ret) ∧
      (ret ≤ 0 ↔ C.rowLe items index x y) ∧ (0 ≤ ret ↔ C.rowLe items index y x) := by
  induction items generalizing index with
  | nil => exact ⟨0, rfl, by simp [rowLe], by simp [rowLe]⟩
  | cons item items ih =>
    rw [length_cons] at hx hy
    have hgetx : x.key[index]? = some (x.key.getD index .null) :=
      getElem?_eq_some_getD (by omega : index < x.key.length) .null
    have hgety : y.key[index]? = some (y.key.getD index .null) :=
      getElem?_eq_some_getD (by omega : index < y.key.length) .null
    obtain ⟨ret, hcmp, hle, hge⟩ := C.compare_eq (x.key.getD index .null) (y.key.getD index .null)
    -- The result for the item, turned around if it is descending.
    obtain ⟨ret', hret', hle', hge'⟩ : ∃ ret', ret' = (if item.desc then -ret else ret) ∧
        (ret' ≤ 0 ↔ C.itemLe item (x.key.getD index .null) (y.key.getD index .null)) ∧
        (0 ≤ ret' ↔ C.itemLe item (y.key.getD index .null) (x.key.getD index .null)) := by
      refine ⟨_, rfl, ?_, ?_⟩
      · unfold itemLe
        split_ifs
        · rw [← hge]
          omega
        · exact hle
      · unfold itemLe
        split_ifs
        · rw [← hle]
          omega
        · exact hge
    rw [TopNHeap.compareKeys, Go.index_eq_ok hgetx, Go.ok_bind, Go.index_eq_ok hgety, Go.ok_bind,
      hcmp]
    dsimp only
    rw [← hret']
    by_cases hzero : ret' < 0 ∨ ret' > 0
    · rw [if_pos hzero]
      refine ⟨ret', rfl, ?_, ?_⟩
      · rw [rowLe, ← hle', ← hge']
        exact ⟨fun h => ⟨h, fun h' => by omega⟩, fun h => h.1⟩
      · rw [rowLe, ← hle', ← hge']
        exact ⟨fun h => ⟨h, fun h' => by omega⟩, fun h => h.1⟩
    · have hx' : index + 1 + items.length ≤ x.key.length := by omega
      have hy' : index + 1 + items.length ≤ y.key.length := by omega
      obtain ⟨rest, heq, hrest, hrest'⟩ := ih hx' hy'
      rw [if_neg hzero]
      refine ⟨rest, heq, ?_, ?_⟩
      · rw [rowLe, ← hle', ← hge', hrest]
        exact ⟨fun h => ⟨by omega, fun _ => h⟩, fun h => h.2 (by omega)⟩
      · rw [rowLe, ← hle', ← hge', hrest']
        exact ⟨fun h => ⟨by omega, fun _ => h⟩, fun h => h.2 (by omega)⟩

end TotalCompare

namespace TopNHeap

variable {cmp : CompareDatum} (C : TotalCompare cmp) {items : List ByItem} {totalCount : ℕ}
  {t : TopNHeap} {row : SortRow} {seen : List SortRow}

structure Good (items : List ByItem) (totalCount : ℕ) (t : TopNHeap) : Prop where
  items_eq : t.orderByItems = items
  totalCount_eq : t.totalCount = totalCount
  err_eq : t.err = none
  keys : ∀ r ∈ t.rows, items.length ≤ r.key.length

section

variable (hgood : Good items totalCount t) {i j : ℕ} {x y : SortRow} (hx : t.rows[i]? = some x)
  (hy : t.rows[j]? = some y)
include hgood hx hy

theorem lessBy_eq :
    ∃ ret, (∀ test, t.lessBy cmp test i j = .ok (t, test ret)) ∧ (ret ≤ 0 ↔ C.rowLe items 0 x y) ∧
      (0 ≤ ret ↔ C.rowLe items 0 y x) := by
  have hkey : 0 + items.length ≤ x.key.length := by
    rw [Nat.zero_add]
    exact hgood.keys x (mem_of_getElem? hx)
  have hkey' : 0 + items.length ≤ y.key.length := by
    rw [Nat.zero_add]
    exact hgood.keys y (mem_of_getElem? hy)
  obtain ⟨ret, heq, hle, hge⟩ := C.compareKeys_eq hkey hkey'
  refine ⟨ret, fun test => ?_, hle, hge⟩
  rw [lessBy, Go.index_eq_ok hx, Go.ok_bind, Go.index_eq_ok hy, Go.ok_bind, hgood.items_eq, heq]
  rfl

theorem sorterLess_eq :
    ∃ less, t.sorterLess cmp i j = .ok (t, less) ∧ (less = true ↔ ¬ C.rowLe items 0 y x) := by
  obtain ⟨ret, heq, -, hge⟩ := lessBy_eq C hgood hx hy
  refine ⟨decide (ret < 0), heq _, ?_⟩
  rw [decide_eq_true_iff, ← hge]
  omega

theorem less_eq :
    ∃ less, t.less cmp i j = .ok (t, less) ∧ (less = true ↔ ¬ C.rowLe items 0 x y) := by
  obtain ⟨ret, heq, hle, -⟩ := lessBy_eq C hgood hx hy
  refine ⟨decide (ret > 0), heq _, ?_⟩
  rw [decide_eq_true_iff, ← hle]
  omega

theorem swap_eq :
    t.swap i j = .ok { t with rows := Heap.exchange t.rows i j x y } ∧
      Good items totalCount { t with rows := Heap.exchange t.rows i j x y } := by
  constructor
  · rw [swap, Go.index_eq_ok hx, Go.ok_bind, Go.index_eq_ok hy, Go.ok_bind]
    rfl
  · refine ⟨hgood.items_eq, hgood.totalCount_eq, hgood.err_eq, fun r hr => ?_⟩
    obtain ⟨k, hk⟩ := mem_iff_getElem?.mp hr
    rw [Heap.getElem?_exchange hx hy] at hk
    apply hgood.keys r
    split_ifs at hk
    · cases hk
      exact mem_of_getElem? hx
    · cases hk
      exact mem_of_getElem? hy
    · exact mem_of_getElem? hk

end

theorem lawful : Heap.Lawful (interface cmp) rows (fun x y => C.rowLe items 0 y x)
    (Good items totalCount) where
  total x y := C.rowLe_total items 0 y x
  trans _ _ _ hxy hyz := C.rowLe_trans hyz hxy
  less_eq _ _ _ _ _ hgood hx hy := less_eq C hgood hx hy
  swap_eq _ _ _ _ _ hgood hx hy := ⟨_, (swap_eq hgood hx hy).1, (swap_eq hgood hx hy).2, rfl, rfl⟩

/-- The heap holds the first of the rows seen so far. -/
structure Holds (items : List ByItem) (totalCount : ℕ) (seen : List SortRow) (t : TopNHeap) :
    Prop extends Good items totalCount t where
  heapSize_eq : t.heapSize = min totalCount seen.length
  length_eq : t.rows.length = t.heapSize
  ordered : Heap.Ordered (fun x y => C.rowLe items 0 y x) t.rows t.heapSize
  dropped : ∃ rest, (t.rows ++ rest).Perm seen ∧ ∀ x ∈ t.rows, ∀ y ∈ rest, C.rowLe items 0 x y

theorem holds_nil (items : List ByItem) (totalCount : ℕ) :
    Holds C items totalCount [] { orderByItems := items, totalCount := totalCount } where
  items_eq := rfl
  totalCount_eq := rfl
  err_eq := rfl
  keys _ hr := by cases hr
  heapSize_eq := (Nat.min_zero _).symm
  length_eq := rfl
  ordered _ _ hkn := absurd hkn (Nat.not_lt_zero _)
  dropped := ⟨[], .refl _, fun _ hx => by cases hx⟩

theorem Good.append (h : Good items totalCount t) (hkey : items.length ≤ row.key.length) (n : ℕ) :
    Good items totalCount { t with rows := t.rows ++ [row], heapSize := n } := by
  refine ⟨h.items_eq, h.totalCount_eq, h.err_eq, fun r hr => ?_⟩
  rcases mem_append.mp hr with hr | hr
  · exact h.keys r hr
  · rw [mem_singleton.mp hr]
    exact hkey

theorem Holds.tryToAddRow_push (h : Holds C items totalCount seen t)
    (hkey : items.length ≤ row.key.length) (hlt : t.heapSize < totalCount) :
    ∃ t', t.tryToAddRow cmp row = .ok (t', true) ∧ Holds C items totalCount (seen ++ [row]) t' ∧
      t'.rows.Perm (t.rows ++ [row]) := by
  have hlength := h.length_eq
  have hsize := h.heapSize_eq
  have hne : ¬ t.heapSize = t.totalCount := by
    rw [h.totalCount_eq]
    omega
  have hlength' : (t.push row).rows.length = t.heapSize + 1 := by
    rw [push, length_append, hlength, length_singleton]
  have hordered : Heap.Ordered (fun x y => C.rowLe items 0 y x) (t.push row).rows
      ((interface cmp).len (t.push row) - 1) := by
    intro k hk hkn x y hx hy
    have hlt : k < t.heapSize := hkn
    rw [push, getElem?_append_left (by omega)] at hx hy
    exact h.ordered k hk hlt x y hx hy
  have hgood : Good items totalCount (t.push row) := h.toGood.append hkey _
  have hpos : 0 < (interface cmp).len (t.push row) := Nat.succ_pos _
  obtain ⟨t', heq, hgood', hordered', hrearranged, hlen⟩ :=
    (lawful C).push_last hpos hlength'.ge hgood hordered
  have hperm : t'.rows.Perm (t.rows ++ [row]) := hrearranged.perm
  have hlen' : t'.heapSize = t.heapSize + 1 := hlen
  -- Nothing has been dropped before.
  obtain ⟨rest, hrest, -⟩ := h.dropped
  have hnone : rest = [] := by
    have hcount := hrest.length_eq
    rw [length_append] at hcount
    exact length_eq_zero_iff.mp (by omega)
  rw [hnone, append_nil] at hrest
  refine ⟨t', ?_, ⟨hgood', ?_, ?_, ?_, [], ?_, ?_⟩, hperm⟩
  · rw [tryToAddRow, if_neg hne, heq]
    rfl
  · rw [hlen', length_append, length_singleton]
    omega
  · rw [hlen', hrearranged.length_eq, hlength']
  · rw [hlen']
    exact hordered'
  · rw [append_nil]
    exact hperm.trans (hrest.append_right _)
  · exact fun x _ y hy => by cases hy

theorem Holds.le_root (h : Holds C items totalCount seen t) {root x : SortRow}
    (hroot : t.rows[0]? = some root) (hx : x ∈ t.rows) : C.rowLe items 0 x root := by
  obtain ⟨k, hk⟩ := mem_iff_getElem?.mp hx
  have hlt : k < t.heapSize := by
    rw [← h.length_eq]
    exact (List.getElem?_eq_some_iff.mp hk).1
  have hrefl : ∀ y, C.rowLe items 0 y y := fun y => (C.rowLe_total items 0 y y).elim id id
  exact h.ordered.root hrefl (fun _ _ _ hxy hyz => C.rowLe_trans hyz hxy) h.length_eq.ge hlt root x
    hroot hk

def park (t : TopNHeap) (row : SortRow) : TopNHeap := { t with rows := t.rows ++ [row] }

theorem tryToAddRow_of_full (hfull : t.heapSize = t.totalCount) {less : Bool}
    (hless : (t.park row).less cmp 0 t.heapSize = .ok (t.park row, less)) :
    t.tryToAddRow cmp row = do
      let t ← if less then do
          let t ← (t.park row).swap 0 t.heapSize
          Heap.fix (interface cmp) t 0
        else pure (t.park row)
      let rows ← Go.slice t.rows 0 t.heapSize
      return ({ t with rows := rows }, less) := by
  rw [tryToAddRow, if_pos hfull]
  change ((t.park row).less cmp 0 t.heapSize >>= _) = _
  rw [hless, Go.ok_bind]
  cases less <;> rfl

variable {rows : List SortRow}

theorem exchange_root {root : SortRow} (hroot : rows[0]? = some root) :
    Heap.exchange (rows ++ [row]) 0 rows.length root row = rows.set 0 row ++ [root] := by
  have hpos : 0 < rows.length := (List.getElem?_eq_some_iff.mp hroot).1
  rw [Heap.exchange, set_append_left _ _ hpos, set_append_right _ _ (by simp)]
  simp

section

variable (h : Holds C items totalCount seen t) (hkey : items.length ≤ row.key.length)
include h hkey

theorem Holds.tryToAddRow_replace (hfull : t.heapSize = totalCount) {root : SortRow}
    (hroot : t.rows[0]? = some root) (hlt : ¬ C.rowLe items 0 root row) :
    ∃ t', t.tryToAddRow cmp row = .ok (t', true) ∧ Holds C items totalCount (seen ++ [row]) t' ∧
      (t'.rows ++ [root]).Perm (t.rows ++ [row]) := by
  have hlength := h.length_eq
  have hsize := h.heapSize_eq
  have hpos : 0 < t.rows.length := (List.getElem?_eq_some_iff.mp hroot).1
  have hgood : Good items totalCount (t.park row) := h.toGood.append hkey _
  have hfirst : (t.park row).rows[0]? = some root := by
    rw [park, getElem?_append_left hpos, hroot]
  have hlast : (t.park row).rows[t.heapSize]? = some row := by
    rw [park, ← hlength, getElem?_concat_length]
  obtain ⟨less, hless, hiff⟩ := less_eq C hgood hfirst hlast
  obtain rfl : less = true := hiff.mpr hlt
  -- The row and the root are exchanged.
  obtain ⟨hswap, hgood₁⟩ := swap_eq hgood hfirst hlast
  obtain ⟨t₁, ht₁⟩ : ∃ t₁, t₁ = { t.park row with
      rows := Heap.exchange (t.park row).rows 0 t.heapSize root row } := ⟨_, rfl⟩
  have hrows₁ : t₁.rows = t.rows.set 0 row ++ [root] := by
    rw [ht₁, ← hlength]
    exact exchange_root hroot
  rw [← ht₁] at hswap hgood₁
  have hlen₁ : (interface cmp).len t₁ = t.heapSize := by rw [ht₁]; rfl
  have hlength₁ : (t.rows.set 0 row).length = t.heapSize := by rw [length_set, hlength]
  -- Only the root is out of order.
  have hothers : ∀ k, 0 < k → k < (interface cmp).len t₁ → (k - 1) / 2 ≠ 0 →
      Heap.LeAt (fun x y => C.rowLe items 0 y x) t₁.rows ((k - 1) / 2) k := by
    intro k hk hkn hparent x y hx hy
    rw [hlen₁] at hkn
    rw [hrows₁, getElem?_append_left (by omega), getElem?_set_ne (by omega)] at hx hy
    exact h.ordered k hk hkn x y hx hy
  obtain ⟨t₂, hfix, hgood₂, hordered, hrearranged, hlen₂⟩ := (lawful C).fix_root
    (by rw [hlen₁, hrows₁, length_append, hlength₁]; omega) hgood₁ hothers
  rw [hlen₁] at hordered hrearranged hlen₂
  have hdrop : t₂.rows.drop t.heapSize = [root] := by
    rw [hrearranged.2, hrows₁, drop_left' hlength₁]
  have hsplit : t₂.rows.take t.heapSize ++ [root] = t₂.rows := by
    rw [← hdrop, take_append_drop]
  have hperm : (t₂.rows.take t.heapSize ++ [root]).Perm (t.rows ++ [row]) := by
    have hexchange :=
      Heap.rearranged_exchange (n := t.heapSize + 1) hfirst hlast (by omega) (by omega)
    rw [hsplit]
    exact hrearranged.perm.trans (ht₁ ▸ hexchange.perm)
  have hlength₂ : t.heapSize ≤ t₂.rows.length := by
    rw [← hsplit, length_append, length_take]
    have hcount := hrearranged.length_eq
    rw [hrows₁, length_append, hlength₁] at hcount
    omega
  have hlen₂' : t₂.heapSize = t.heapSize := hlen₂
  have hslice : Go.slice t₂.rows 0 t₂.heapSize = .ok (t₂.rows.take t.heapSize) := by
    rw [hlen₂', Go.slice_eq_ok (Nat.zero_le _) hlength₂, drop_zero]
  have hmem : ∀ x ∈ t₂.rows.take t.heapSize, x ∈ t.rows ∨ x = row := by
    intro x hx
    have hx' := hperm.mem_iff.mp (mem_append_left _ hx)
    simpa using hx'
  have hrow : C.rowLe items 0 row root := (C.rowLe_total items 0 root row).resolve_left hlt
  obtain ⟨rest, hrest, hdropped⟩ := h.dropped
  refine ⟨{ t₂ with rows := t₂.rows.take t.heapSize }, ?_, ⟨⟨hgood₂.items_eq, hgood₂.totalCount_eq,
    hgood₂.err_eq, fun r hr => hgood₂.keys r (mem_of_mem_take hr)⟩, ?_, ?_, ?_,
    root :: rest, ?_, ?_⟩, hperm⟩
  · rw [tryToAddRow_of_full (by rw [hfull, h.totalCount_eq]) hless, if_pos rfl, hswap, Go.ok_bind,
      hfix, Go.ok_bind]
    dsimp only
    rw [hslice]
    rfl
  · change t₂.heapSize = _
    rw [hlen₂', length_append, length_singleton]
    omega
  · change (t₂.rows.take t.heapSize).length = t₂.heapSize
    rw [length_take, hlen₂']
    omega
  · intro k hk hkn x y hx hy
    change k < t₂.heapSize at hkn
    rw [getElem?_take_of_lt (by omega)] at hx hy
    exact hordered k hk (by omega) x y hx hy
  · rw [← singleton_append, ← append_assoc]
    calc List.Perm _ ((t.rows ++ [row]) ++ rest) := hperm.append_right rest
      List.Perm _ ((t.rows ++ rest) ++ [row]) := by
        rw [append_assoc, append_assoc]
        exact perm_append_comm.append_left t.rows
      List.Perm _ (seen ++ [row]) := hrest.append_right [row]
  · intro x hx y hy
    -- The root was the last row in the heap.
    have hxroot : C.rowLe items 0 x root := by
      rcases hmem x hx with hx | rfl
      · exact h.le_root C hroot hx
      · exact hrow
    rcases mem_cons.mp hy with rfl | hy
    · exact hxroot
    · exact C.rowLe_trans hxroot (hdropped root (mem_of_getElem? hroot) y hy)

theorem Holds.tryToAddRow_drop (hfull : t.heapSize = totalCount)
    (hle : ∀ root, t.rows[0]? = some root → C.rowLe items 0 root row) :
    ∃ t', t.tryToAddRow cmp row = .ok (t', false) ∧ Holds C items totalCount (seen ++ [row]) t' ∧
      t'.rows = t.rows := by
  have hlength := h.length_eq
  have hsize := h.heapSize_eq
  have hgood : Good items totalCount (t.park row) := h.toGood.append hkey _
  have hlast : (t.park row).rows[t.heapSize]? = some row := by
    rw [park, ← hlength, getElem?_concat_length]
  -- Without any rows in the heap, the row is compared with itself.
  obtain ⟨first, hfirst, hfirst'⟩ : ∃ first, (t.park row).rows[0]? = some first ∧
      C.rowLe items 0 first row := by
    rcases hempty : t.rows with _ | ⟨root, rows⟩
    · refine ⟨row, by rw [park, hempty]; rfl, (C.rowLe_total items 0 row row).elim id id⟩
    · exact ⟨root, by rw [park, hempty]; rfl, hle root (by rw [hempty]; rfl)⟩
  obtain ⟨less, hless, hiff⟩ := less_eq C hgood hfirst hlast
  obtain rfl : less = false := Bool.eq_false_iff.mpr fun htrue => hiff.mp htrue hfirst'
  have hslice : Go.slice (t.park row).rows 0 (t.park row).heapSize = .ok t.rows := by
    rw [Go.slice_eq_ok (Nat.zero_le _) (by simp [park, hlength]), drop_zero]
    exact congrArg Except.ok (take_left' hlength)
  obtain ⟨rest, hrest, hdropped⟩ := h.dropped
  refine ⟨{ t.park row with rows := t.rows }, ?_, ⟨h.toGood, ?_, hlength, h.ordered, row :: rest,
    ?_, ?_⟩, rfl⟩
  · rw [tryToAddRow_of_full (by rw [hfull, h.totalCount_eq]) hless, if_neg Bool.false_ne_true]
    change (Go.slice (t.park row).rows 0 (t.park row).heapSize >>= _) = _
    rw [hslice]
    rfl
  · change t.heapSize = _
    rw [length_append, length_singleton]
    omega
  · calc List.Perm (t.rows ++ row :: rest) (row :: (t.rows ++ rest)) := perm_middle
      List.Perm _ (row :: seen) := hrest.cons row
      List.Perm _ (seen ++ [row]) := (perm_append_singleton row seen).symm
  · intro x hx y hy
    rcases mem_cons.mp hy with rfl | hy
    · obtain ⟨root, hroot⟩ : ∃ root, t.rows[0]? = some root :=
        ⟨_, getElem?_eq_getElem (length_pos_of_mem hx)⟩
      exact C.rowLe_trans (h.le_root C hroot hx) (hle root hroot)
    · exact hdropped x hx y hy

theorem Holds.tryToAddRow_spec :
    ∃ t' entered, t.tryToAddRow cmp row = .ok (t', entered) ∧
      Holds C items totalCount (seen ++ [row]) t' ∧
      (entered = true ↔ t'.rows.count row = t.rows.count row + 1) ∧
      (entered = false → t'.rows = t.rows) := by
  have hsize := h.heapSize_eq
  by_cases hlt : t.heapSize < totalCount
  · obtain ⟨t', heq, hholds, hperm⟩ := h.tryToAddRow_push C hkey hlt
    refine ⟨t', true, heq, hholds, ⟨fun _ => ?_, fun _ => rfl⟩, nofun⟩
    rw [hperm.count_eq, count_append, count_singleton_self]
  have hfull : t.heapSize = totalCount := by omega
  by_cases hle : ∀ root, t.rows[0]? = some root → C.rowLe items 0 root row
  · obtain ⟨t', heq, hholds, hrows⟩ := h.tryToAddRow_drop C hkey hfull hle
    refine ⟨t', false, heq, hholds, ⟨nofun, fun hcount => ?_⟩, fun _ => hrows⟩
    rw [hrows] at hcount
    omega
  · push Not at hle
    obtain ⟨root, hroot, hnot⟩ := hle
    obtain ⟨t', heq, hholds, hperm⟩ := h.tryToAddRow_replace C hkey hfull hroot hnot
    refine ⟨t', true, heq, hholds, ⟨fun _ => ?_, fun _ => rfl⟩, nofun⟩
    -- The root is another row, so that its leaving does not count.
    have hne : root ≠ row := by
      rintro rfl
      exact hnot ((C.rowLe_total items 0 root root).elim id id)
    have hcount := hperm.count_eq row
    rwa [count_append, count_append, count_singleton_self,
      count_singleton, if_neg (by simpa using hne), Nat.add_zero] at hcount

end

theorem Holds.addRows (h : Holds C items totalCount seen t)
    (hkeys : ∀ r ∈ rows, items.length ≤ r.key.length) :
    ∃ t', addRows cmp rows t = .ok t' ∧ Holds C items totalCount (seen ++ rows) t' := by
  induction rows generalizing t seen with
  | nil => exact ⟨t, rfl, by rwa [append_nil]⟩
  | cons row rows ih =>
    obtain ⟨t₁, entered, heq, hholds, -⟩ := h.tryToAddRow_spec C (hkeys row mem_cons_self)
    obtain ⟨t₂, heq', hholds'⟩ := ih hholds fun r hr => hkeys r (mem_cons_of_mem row hr)
    refine ⟨t₂, ?_, ?_⟩
    · rw [TopNHeap.addRows, heq]
      exact heq'
    · rwa [append_assoc, singleton_append] at hholds'

theorem Holds.sort_eq (h : Holds C items totalCount seen t) {sort : TopNHeap → Go TopNHeap}
    (hsort : Sorts cmp sort) :
    ∃ rows, sort t = .ok { t with rows := rows } ∧ rows.Perm t.rows ∧
      rows.Pairwise (C.rowLe items 0) := by
  apply hsort t (C.rowLe items 0) (C.rowLe_total items 0) fun _ _ _ => C.rowLe_trans
  intro rows i j x y hperm hx hy
  have hgood : Good items totalCount { t with rows := rows } :=
    ⟨h.items_eq, h.totalCount_eq, h.err_eq, fun r hr => h.keys r (hperm.mem_iff.mp hr)⟩
  exact sorterLess_eq C hgood hx hy

structure FirstRows (items : List ByItem) (n : ℕ) (all first : List SortRow) : Prop where
  sorted : first.Pairwise (C.rowLe items 0)
  take_eq : ∃ whole : List SortRow, whole.Perm all ∧ whole.Pairwise (C.rowLe items 0) ∧
    first = whole.take n
  keys_eq : ∀ whole : List SortRow, whole.Perm all → whole.Pairwise (C.rowLe items 0) →
    List.Forall₂ (AntisymmRel (C.rowLe items 0)) first (whole.take n)

theorem forall₂_of_perm {rows rows' : List SortRow} (hperm : rows.Perm rows')
    (hrows : rows.Pairwise (C.rowLe items 0)) (hrows' : rows'.Pairwise (C.rowLe items 0)) :
    List.Forall₂ (AntisymmRel (C.rowLe items 0)) rows rows' := by
  let : Preorder SortRow :=
    { le := C.rowLe items 0
      le_refl := fun x => (C.rowLe_total items 0 x x).elim id id
      le_trans := fun _ _ _ => C.rowLe_trans }
  exact OrderedList.forall₂_antisymmRel_of_perm hperm hrows hrows'

open Classical in
theorem exists_sorted (items : List ByItem) (rows : List SortRow) :
    ∃ sorted : List SortRow, sorted.Perm rows ∧ sorted.Pairwise (C.rowLe items 0) := by
  have : Std.Total (C.rowLe items 0) := ⟨C.rowLe_total items 0⟩
  have : IsTrans SortRow (C.rowLe items 0) := ⟨fun _ _ _ => C.rowLe_trans⟩
  exact ⟨rows.insertionSort (C.rowLe items 0), perm_insertionSort _ rows,
    pairwise_insertionSort _ rows⟩

theorem Holds.firstRows (h : Holds C items totalCount seen t) (hperm : rows.Perm t.rows)
    (hsorted : rows.Pairwise (C.rowLe items 0)) : FirstRows C items totalCount seen rows := by
  obtain ⟨rest, hrest, hdropped⟩ := h.dropped
  obtain ⟨rest', hperm', hsorted'⟩ := exists_sorted C items rest
  have hall : (rows ++ rest').Perm seen := (hperm.append hperm').trans hrest
  have hallSorted : (rows ++ rest').Pairwise (C.rowLe items 0) := by
    refine pairwise_append.mpr ⟨hsorted, hsorted', fun x hx y hy => ?_⟩
    exact hdropped x (hperm.mem_iff.mp hx) y (hperm'.mem_iff.mp hy)
  -- Rows have been dropped only if the heap is full.
  have htake : rows = (rows ++ rest').take totalCount := by
    have hlength : rows.length = min totalCount seen.length := by
      rw [hperm.length_eq, h.length_eq, h.heapSize_eq]
    have hcount := hall.length_eq
    rw [length_append] at hcount
    rcases Nat.le_total totalCount seen.length with hle | hle
    · rw [take_left' (by omega)]
    · rw [take_of_length_le (by rw [length_append]; omega),
        length_eq_zero_iff.mp (by omega : rest'.length = 0), append_nil]
  refine ⟨hsorted, ⟨_, hall, hallSorted, htake⟩, fun sorted hsame hsortedAll => ?_⟩
  rw [htake]
  exact forall₂_take totalCount
    (forall₂_of_perm C (hall.trans hsame.symm) hallSorted hsortedAll)

def new (items : List ByItem) (totalCount : ℕ) : TopNHeap :=
  { orderByItems := items, totalCount := totalCount }

structure KeepsFirst (sort : TopNHeap → Go TopNHeap) (items : List ByItem) (totalCount : ℕ)
    (rows : List SortRow) : Prop where
  kept : ∃ t t', addRows cmp rows (new items totalCount) = .ok t ∧
    t.heapSize = min totalCount rows.length ∧ sort t = .ok t' ∧
    FirstRows C items totalCount rows t'.rows
  entered : ∀ before row after, rows = before ++ row :: after → ∃ t t' entered,
    addRows cmp before (new items totalCount) = .ok t ∧
    t.tryToAddRow cmp row = .ok (t', entered) ∧
    (entered = true ↔ t'.rows.count row = t.rows.count row + 1) ∧
    (entered = false → t'.rows = t.rows)

def isLess (cmp : CompareDatum) (items : List ByItem) (x y : SortRow) : Bool :=
  match compareKeys cmp items 0 x y with
  | .ok (.ok ret) => ret < 0
  | _ => true

def insertionSort (cmp : CompareDatum) (t : TopNHeap) : Go TopNHeap :=
  .ok { t with rows := t.rows.insertionSort fun x y => isLess cmp t.orderByItems y x = false }

theorem isLess_of_sorterLess {t' : TopNHeap} {less : Bool} {i j : ℕ} {x y : SortRow}
    (hx : t.rows[i]? = some x) (hy : t.rows[j]? = some y)
    (heq : t.sorterLess cmp i j = .ok (t', less)) : isLess cmp t.orderByItems x y = less := by
  rw [sorterLess, lessBy, Go.index_eq_ok hx, Go.ok_bind, Go.index_eq_ok hy, Go.ok_bind] at heq
  unfold isLess
  obtain ⟨result, hresult, heq⟩ := Go.bind_eq_ok.mp heq
  rw [hresult]
  cases result with
  | error err => cases heq; rfl
  | ok ret => cases heq; rfl

open Classical in
theorem sorts_insertionSort : Sorts cmp (insertionSort cmp) := by
  intro t le htotal htrans hless
  -- On the rows of the heap, the sort is the one by the order.
  have hsame : ∀ x ∈ t.rows, ∀ y ∈ t.rows, isLess cmp t.orderByItems y x = false ↔ le x y := by
    intro x hx y hy
    obtain ⟨i, hi⟩ := mem_iff_getElem?.mp hx
    obtain ⟨j, hj⟩ := mem_iff_getElem?.mp hy
    obtain ⟨less, heq, hiff⟩ := hless t.rows j i y x (.refl _) hj hi
    rw [isLess_of_sorterLess hj hi heq, Bool.eq_false_iff, ne_eq, hiff, not_not]
  have hsort := map_insertionSort _ le id t.rows hsame
  rw [map_id, map_id] at hsort
  have : Std.Total le := ⟨htotal⟩
  have : IsTrans SortRow le := ⟨htrans⟩
  refine ⟨_, rfl, perm_insertionSort _ _, ?_⟩
  rw [hsort]
  exact pairwise_insertionSort le t.rows

/-- TopN keeps the first of the rows, whatever their number is. -/
theorem keepsFirst {sort : TopNHeap → Go TopNHeap} (hsort : Sorts cmp sort) (items : List ByItem)
    (totalCount : ℕ) (rows : List SortRow) (hkeys : ∀ r ∈ rows, items.length ≤ r.key.length) :
    KeepsFirst C sort items totalCount rows where
  kept := by
    obtain ⟨t, heq, hholds⟩ := (holds_nil C items totalCount).addRows C hkeys
    rw [nil_append] at hholds
    obtain ⟨sorted, hsorts, hperm, hsorted⟩ := hholds.sort_eq C hsort
    exact ⟨t, _, heq, hholds.heapSize_eq, hsorts, hholds.firstRows C hperm hsorted⟩
  entered := by
    rintro before row after rfl
    have hbefore : ∀ r ∈ before, items.length ≤ r.key.length :=
      fun r hr => hkeys r (mem_append_left _ hr)
    obtain ⟨t, heq, hholds⟩ := (holds_nil C items totalCount).addRows C hbefore
    have hrow : items.length ≤ row.key.length :=
      hkeys row (mem_append_right _ mem_cons_self)
    obtain ⟨t', entered, hadd, -, hentered, hkept⟩ := hholds.tryToAddRow_spec C hrow
    exact ⟨t, t', entered, heq, hadd, hentered, hkept⟩

def rank : Datum → ℤ
  | .int64 v => v.toInt
  | _ => 0

def compareRank : CompareDatum := fun a b => .ok (rank a - rank b)

def totalCompareRank : TotalCompare compareRank where
  le a b := rank a ≤ rank b
  total a b := Int.le_total (rank a) (rank b)
  trans _ _ _ := Int.le_trans
  compare_eq a b := ⟨rank a - rank b, rfl, by omega, by omega⟩

theorem keepsFirst_sample : KeepsFirst totalCompareRank (insertionSort compareRank)
    [⟨false⟩, ⟨true⟩] 2 [⟨[.int64 3, .int64 1], []⟩, ⟨[.int64 1, .int64 1], []⟩,
      ⟨[.int64 1, .int64 2], []⟩, ⟨[.int64 1, .int64 1], []⟩] :=
  keepsFirst totalCompareRank sorts_insertionSort _ 2 _ (by decide)

end TopNHeap

end TinyKV
