import TinyKV.OrderedList
import TinyKV.Search

/-!
# The B-tree

The walks over a B-tree of `scheduler/pkg/btree/btree.go`.
-/

namespace TinyKV

open List

universe u v w

namespace Btree

mutual

inductive Node (β : Type u)
  | leaf (items : List β)
  | inner (children : Children β)

inductive Children (β : Type u)
  | first (child : Node β)
  | snoc (before : Children β) (item : β) (child : Node β)

end

variable {α : Type u} {β : Type v} {σ : Type w}

def Children.items : Children β → List β
  | .first _ => []
  | .snoc before item _ => before.items ++ [item]

mutual

/-- The items of a node and its children, from left to right. -/
def Node.toList : Node β → List β
  | .leaf items => items
  | .inner children => children.toList

def Children.toList : Children β → List β
  | .first child => child.toList
  | .snoc before item child => before.toList ++ item :: child.toList

end

structure Walk (σ : Type w) where
  state : σ
  hit : Bool
  ok : Bool

def Walk.next (r : Walk σ) (f : Bool → σ → Walk σ) : Walk σ := if r.ok then f r.hit r.state else r

section

variable [LinearOrder α] (key : β → α)

def find (items : List β) (item : β) : ℕ × Bool :=
  let i := Search.search items.length fun i => items[i]?.any fun x => key item < key x
  if 0 < i ∧ items[i - 1]?.any fun x => ¬ key x < key item then (i - 1, true) else (i, false)

section

variable (start stop : Option β) (includeStart : Bool) (iter : β → σ → σ × Bool)

def ascendItem (item : β) (hit : Bool) (s : σ) : Walk σ :=
  if !includeStart && !hit && start.any fun start => ¬ key start < key item then ⟨s, true, true⟩
  else if stop.any fun stop => ¬ key item < key stop then ⟨s, true, false⟩
  else
    let (s, ok) := iter item s
    ⟨s, true, ok⟩

def ascendItems : List β → Bool → σ → Walk σ
  | [], hit, s => ⟨s, hit, true⟩
  | item :: items, hit, s =>
    (ascendItem key start stop includeStart iter item hit s).next (ascendItems items)

def ascendIndex (items : List β) : ℕ :=
  match start with
  | some start => (find key items start).1
  | none => 0

mutual

def Node.ascend : Node β → Bool → σ → Walk σ
  | .leaf items, hit, s =>
    ascendItems key start stop includeStart iter (items.drop (ascendIndex key start items)) hit s
  | .inner children, hit, s => children.ascend (ascendIndex key start children.items) hit s

def Children.ascend : Children β → ℕ → Bool → σ → Walk σ
  | .first child, _, hit, s => child.ascend hit s
  | .snoc before item child, index, hit, s =>
    if before.items.length < index then child.ascend hit s
    else
      ((before.ascend index hit s).next
        (ascendItem key start stop includeStart iter item)).next child.ascend

end

def descendItem (child : Bool → σ → Walk σ) (item : β) (hit : Bool) (s : σ) : Walk σ :=
  if start.any fun start =>
      ¬ key item < key start && (!includeStart || hit || decide (key start < key item)) then
    ⟨s, hit, true⟩
  else
    (child hit s).next fun hit s =>
      if stop.any fun stop => ¬ key stop < key item then ⟨s, hit, false⟩
      else
        let (s, ok) := iter item s
        ⟨s, true, ok⟩

def descendItems : List β → Bool → σ → Walk σ
  | [], hit, s => ⟨s, hit, true⟩
  | item :: items, hit, s =>
    (descendItem key start stop includeStart iter (fun hit s => ⟨s, hit, true⟩) item hit s).next
      (descendItems items)

def descendCount (items : List β) : ℕ :=
  match start with
  | some start =>
    let (index, found) := find key items start
    if found then index + 1 else index
  | none => items.length

mutual

def Node.descend : Node β → Bool → σ → Walk σ
  | .leaf items, hit, s =>
    descendItems key start stop includeStart iter
      (items.take (descendCount key start items)).reverse hit s
  | .inner children, hit, s => children.descend (descendCount key start children.items) hit s

def Children.descend : Children β → ℕ → Bool → σ → Walk σ
  | .first child, _, hit, s => child.descend hit s
  | .snoc before item child, count, hit, s =>
    if count ≤ before.items.length then before.descend count hit s
    else
      (descendItem key start stop includeStart iter child.descend item hit s).next
        (before.descend before.items.length)

end

end

end

def visit (iter : β → σ → σ × Bool) : List β → σ → σ × Bool
  | [], s => (s, true)
  | item :: items, s =>
    if (iter item s).2 then visit iter items (iter item s).1 else ((iter item s).1, false)

theorem visit_append (iter : β → σ → σ × Bool) (xs ys : List β) (s : σ) :
    visit iter (xs ++ ys) s =
      if (visit iter xs s).2 then visit iter ys (visit iter xs s).1
      else ((visit iter xs s).1, false) := by
  induction xs generalizing s with
  | nil => rfl
  | cons x xs ih =>
    rw [cons_append, visit, visit]
    by_cases hx : (iter x s).2
    · rw [if_pos hx, if_pos hx, ih]
    · rw [if_neg hx, if_neg hx, if_neg (by simp)]

/-- The walk hands on the items of the list, from the state on. -/
structure Visits (iter : β → σ → σ × Bool) (items : List β) (s : σ) (r : Walk σ) : Prop where
  state : r.state = (visit iter items s).1
  ok : r.ok = (visit iter items s).2

section

variable {iter : β → σ → σ × Bool} {xs ys : List β} {s : σ} {r : Walk σ}

theorem visits_nil (hit : Bool) : Visits iter [] s ⟨s, hit, true⟩ := ⟨rfl, rfl⟩

theorem visits_singleton (item : β) (hit : Bool) :
    Visits iter [item] s ⟨(iter item s).1, hit, (iter item s).2⟩ := by
  cases hx : (iter item s).2 with
  | true => exact ⟨by simp [visit, hx], by simp [visit, hx]⟩
  | false => exact ⟨by simp [visit, hx], by simp [visit, hx]⟩

theorem Visits.next {f : Bool → σ → Walk σ} (h : Visits iter xs s r)
    (hf : ∀ hit s, Visits iter ys s (f hit s)) : Visits iter (xs ++ ys) s (r.next f) := by
  unfold Walk.next
  cases hok : r.ok with
  | true =>
    have hvisit : visit iter (xs ++ ys) s = visit iter ys r.state := by
      rw [visit_append, if_pos (h.ok.symm.trans hok), h.state]
    rw [if_pos rfl]
    exact ⟨hvisit ▸ (hf r.hit r.state).state, hvisit ▸ (hf r.hit r.state).ok⟩
  | false =>
    have hvisit : visit iter (xs ++ ys) s = ((visit iter xs s).1, false) := by
      rw [visit_append, if_neg (by simp [← h.ok, hok])]
    rw [if_neg Bool.false_ne_true]
    exact ⟨hvisit ▸ h.state, hvisit ▸ hok⟩

end

section

variable [LinearOrder α] {key : β → α} {items : List β} {start x : β}

theorem filter_eq_take {p : β → Bool} {m : ℕ} (hlo : ∀ k y, k < m → items[k]? = some y → p y = true)
    (hhi : ∀ k y, m ≤ k → items[k]? = some y → p y = false) : items.filter p = items.take m := by
  have htake : (items.take m).filter p = items.take m := by
    refine filter_eq_self.mpr fun y hy => ?_
    obtain ⟨k, hk, rfl⟩ := mem_take_iff_getElem.mp hy
    exact hlo k _ (by omega) (getElem?_eq_getElem (by omega))
  have hdrop : (items.drop m).filter p = [] := by
    refine filter_eq_nil_iff.mpr fun y hy => ?_
    obtain ⟨k, hk, rfl⟩ := mem_drop_iff_getElem.mp hy
    simp [hhi (m + k) _ (by omega) (getElem?_eq_getElem (by omega))]
  conv_lhs => rw [← take_append_drop m items, filter_append, htake, hdrop,
    append_nil]

theorem key_lt_key (h : OrderedList.Sorted key items) {a b : ℕ} {y z : β} (hab : a < b)
    (hy : items[a]? = some y) (hz : items[b]? = some z) : key y < key z := by
  obtain ⟨ha, rfl⟩ := List.getElem?_eq_some_iff.mp hy
  obtain ⟨hb, rfl⟩ := List.getElem?_eq_some_iff.mp hz
  exact pairwise_iff_getElem.mp h a b ha hb hab

theorem search_spec (h : OrderedList.Sorted key items) :
    let i := Search.search items.length fun i => items[i]?.any fun y => key x < key y
    (∀ k y, k < i → items[k]? = some y → key y ≤ key x) ∧
      (∀ k y, i ≤ k → items[k]? = some y → key x < key y) ∧ i ≤ items.length := by
  have hmono : items.Pairwise fun y z =>
      decide (key x < key y) = true → decide (key x < key z) = true :=
    h.imp fun hyz hxy => decide_eq_true ((of_decide_eq_true hxy).trans hyz)
  obtain ⟨hlo, hhi, hle⟩ := Search.search_any hmono
  refine ⟨fun k y hk hy => ?_, fun k y hk hy => ?_, hle⟩
  · exact not_lt.mp (of_decide_eq_false (hlo k y hk hy))
  · exact of_decide_eq_true (hhi k y hk hy)

theorem find_spec (h : OrderedList.Sorted key items) :
    (find key items x).1 = (items.filter fun y => key y < key x).length ∧
      (if (find key items x).2 then (find key items x).1 + 1 else (find key items x).1) =
        (items.filter fun y => key y ≤ key x).length := by
  obtain ⟨hlo, hhi, hle⟩ := search_spec (x := x) h
  unfold find
  generalize Search.search items.length (fun i => items[i]?.any fun y => key x < key y) = i
    at hlo hhi hle ⊢
  have hupto : items.filter (fun y => key y ≤ key x) = items.take i :=
    filter_eq_take (fun k y hk hy => decide_eq_true (hlo k y hk hy))
      fun k y hk hy => decide_eq_false (not_le.mpr (hhi k y hk hy))
  rw [hupto, length_take, min_eq_left hle]
  dsimp only
  by_cases hfound : 0 < i ∧ items[i - 1]?.any (fun y => ¬ key y < key x) = true
  · rw [if_pos hfound]
    obtain ⟨hpos, hlast⟩ := hfound
    have hget : items[i - 1]? = some items[i - 1] := getElem?_eq_getElem (by omega)
    rw [hget, Option.any_some, decide_eq_true_eq] at hlast
    -- The last of the items that are not greater is the one that is looked for.
    have hbefore : items.filter (fun y => key y < key x) = items.take (i - 1) := by
      refine filter_eq_take (fun k y hk hy => decide_eq_true ?_)
        fun k y hk hy => decide_eq_false ?_
      · exact (key_lt_key h hk hy hget).trans_le (hlo _ _ (by omega) hget)
      · rcases hk.eq_or_lt with rfl | hk
        · rw [hget] at hy
          cases hy
          exact hlast
        · exact not_lt.mpr (hhi k y (by omega) hy).le
    rw [hbefore, length_take, min_eq_left (by omega)]
    exact ⟨rfl, by simp; omega⟩
  · rw [if_neg hfound]
    have hbefore : items.filter (fun y => key y < key x) = items.take i := by
      refine filter_eq_take (fun k y hk hy => decide_eq_true ?_)
        fun k y hk hy => decide_eq_false (not_lt.mpr (hhi k y hk hy).le)
      have hget : items[i - 1]? = some items[i - 1] := getElem?_eq_getElem (by omega)
      have hlast : key items[i - 1] < key x := by
        by_contra hge
        exact hfound ⟨by omega, by rw [hget, Option.any_some, decide_eq_true_eq]; exact hge⟩
      rcases (Nat.le_sub_one_of_lt hk).eq_or_lt with rfl | hk
      · rw [hget] at hy
        cases hy
        exact hlast
      · exact (key_lt_key h hk hy hget).trans hlast
    rw [hbefore, length_take, min_eq_left hle]
    exact ⟨rfl, by simp⟩

theorem Children.items_sublist : ∀ children : Children β, children.items.Sublist children.toList
  | .first _ => nil_sublist _
  | .snoc before item child =>
    before.items_sublist.append (List.Sublist.cons_cons item (nil_sublist child.toList))

theorem drop_filter_lt (h : OrderedList.Sorted key items) (k : α) :
    items.drop (items.filter fun y => key y < k).length =
      OrderedList.ascendGreaterOrEqual key k items := by
  have htake := h.takeWhile_eq_filter (p := fun y => key y < k) fun x _ y _ hxy hy => by
    rw [decide_eq_true_eq] at hy ⊢
    exact hxy.trans hy
  rw [← htake, OrderedList.ascendGreaterOrEqual]
  induction items with
  | nil => rfl
  | cons y items ih =>
    by_cases hy : key y < k
    · rw [takeWhile_cons_of_pos (by simpa using hy), length_cons, drop_succ_cons,
        filter_cons_of_neg (by simpa using hy)]
      refine ih h.of_cons ?_
      simpa [hy] using htake
    · rw [takeWhile_cons_of_neg (by simpa using hy), length_nil, drop_zero, eq_comm,
        filter_eq_self]
      intro z hz
      rcases mem_cons.mp hz with rfl | hz
      · exact decide_eq_true (not_lt.mp hy)
      · exact decide_eq_true ((not_lt.mp hy).trans (rel_of_pairwise_cons h hz).le)

theorem take_filter_le (h : OrderedList.Sorted key items) (k : α) :
    items.take (items.filter fun y => key y ≤ k).length = items.filter fun y => key y ≤ k := by
  have htake := h.takeWhile_eq_filter (p := fun y => key y ≤ k) fun x _ y _ hxy hy => by
    rw [decide_eq_true_eq] at hy ⊢
    exact hxy.le.trans hy
  rw [← htake]
  exact (prefix_iff_eq_take.mp (List.takeWhile_prefix _)).symm

theorem sorted_snoc {before : Children β} {item : β} {child : Node β}
    (h : OrderedList.Sorted key (Children.snoc before item child).toList) :
    OrderedList.Sorted key before.toList ∧ OrderedList.Sorted key child.toList ∧
      (∀ y ∈ before.toList, key y < key item) ∧ ∀ y ∈ child.toList, key item < key y := by
  obtain ⟨hbefore, hchild, hlt⟩ := pairwise_append.mp h
  exact ⟨hbefore, hchild.of_cons, fun y hy => hlt y hy item mem_cons_self,
    fun y hy => rel_of_pairwise_cons hchild hy⟩

variable {iter : β → σ → σ × Bool} {s : σ}

theorem visits_ascendItem (item : β) (hit : Bool) (s : σ) :
    Visits iter [item] s (ascendItem key (some start) none true iter item hit s) :=
  visits_singleton item true

theorem visits_ascendItems (items : List β) (hit : Bool) (s : σ) :
    Visits iter items s (ascendItems key (some start) none true iter items hit s) := by
  induction items generalizing hit s with
  | nil => exact visits_nil hit
  | cons item items ih => exact (visits_ascendItem item hit s).next fun hit s => ih hit s

mutual

theorem visits_ascend : ∀ (n : Node β) (hit : Bool) (s : σ), OrderedList.Sorted key n.toList →
    Visits iter (OrderedList.ascendGreaterOrEqual key (key start) n.toList) s
      (n.ascend key (some start) none true iter hit s)
  | .leaf items, hit, s, h => by
    rw [Node.toList] at h ⊢
    have hindex : ascendIndex key (some start) items = _ := (find_spec h).1
    rw [Node.ascend, hindex, drop_filter_lt h]
    exact visits_ascendItems _ hit s
  | .inner children, hit, s, h => by
    have hitems : OrderedList.Sorted key children.items := h.sublist children.items_sublist
    have hindex : ascendIndex key (some start) children.items = _ := (find_spec hitems).1
    rw [Node.ascend, hindex]
    exact visits_children_ascend children hit s h

theorem visits_children_ascend : ∀ (children : Children β) (hit : Bool) (s : σ),
    OrderedList.Sorted key children.toList →
    Visits iter (OrderedList.ascendGreaterOrEqual key (key start) children.toList) s
      (children.ascend key (some start) none true iter
        (children.items.filter fun y => key y < key start).length hit s)
  | .first child, hit, s, h => visits_ascend child hit s h
  | .snoc before item child, hit, s, h => by
    obtain ⟨hbefore, hchild, hlt, hgt⟩ := sorted_snoc h
    rw [Children.ascend, Children.items, Children.toList, filter_append, length_append,
      OrderedList.ascendGreaterOrEqual, filter_append]
    by_cases hitem : key item < key start
    · -- The walk starts after the item, in the last child.
      have hall : before.items.filter (fun y => key y < key start) = before.items :=
        filter_eq_self.mpr fun y hy => decide_eq_true
          ((hlt y (before.items_sublist.subset hy)).trans hitem)
      have hnone : before.toList.filter (fun y => key start ≤ key y) = [] :=
        filter_eq_nil_iff.mpr fun y hy => by simpa using (hlt y hy).trans hitem
      have hone : [item].filter (fun y => key y < key start) = [item] :=
        filter_cons_of_pos (decide_eq_true hitem)
      have hskip : (item :: child.toList).filter (fun y => key start ≤ key y) =
          child.toList.filter fun y => key start ≤ key y :=
        filter_cons_of_neg (by simpa using hitem)
      rw [hall, hone, hnone, hskip, if_pos (by simp)]
      exact visits_ascend child hit s hchild
    · have hle : (before.items.filter fun y => key y < key start).length ≤ before.items.length :=
        length_filter_le _ _
      have hone : [item].filter (fun y => key y < key start) = [] :=
        filter_cons_of_neg (by simpa using hitem)
      have hkeep : (item :: child.toList).filter (fun y => key start ≤ key y) =
          [item] ++ child.toList.filter fun y => key start ≤ key y :=
        filter_cons_of_pos (by simpa using hitem)
      rw [hone, hkeep, length_nil, Nat.add_zero, if_neg (by omega), ← append_assoc]
      exact ((visits_children_ascend before hit s hbefore).next fun hit s =>
        visits_ascendItem item hit s).next fun hit s => visits_ascend child hit s hchild

end

theorem visits_descendItem {child : Bool → σ → Walk σ} {ys : List β} {item : β} {hit : Bool}
    (hle : key item ≤ key start) (hhit : hit = true → key item ≠ key start)
    (hchild : Visits iter ys s (child hit s)) :
    Visits iter (ys ++ [item]) s
      (descendItem key (some start) none true iter child item hit s) := by
  have hgo : (Option.any (fun start => ¬ key item < key start &&
      (!true || hit || decide (key start < key item))) (some start)) = false := by
    have hnot : decide (key start < key item) = false := decide_eq_false (not_lt.mpr hle)
    cases hit with
    | false => simp [hnot]
    | true =>
      have hlt : key item < key start := lt_of_le_of_ne hle (hhit rfl)
      simp [hlt]
  rw [descendItem, hgo, if_neg Bool.false_ne_true]
  exact hchild.next fun hit s => visits_singleton item true

theorem visits_descendItems (items : List β) (hit : Bool) (s : σ)
    (hdesc : items.Pairwise fun x y => key y < key x) (hle : ∀ y ∈ items, key y ≤ key start)
    (hhit : hit = true → ∀ y ∈ items, key y ≠ key start) :
    Visits iter items s (descendItems key (some start) none true iter items hit s) := by
  induction items generalizing hit s with
  | nil => exact visits_nil hit
  | cons item items ih =>
    have hitem : Visits iter ([] ++ [item]) s (descendItem key (some start) none true iter
        (fun hit s => ⟨s, hit, true⟩) item hit s) :=
      visits_descendItem (hle item mem_cons_self) (fun h => hhit h item mem_cons_self)
        (visits_nil hit)
    refine hitem.next fun hit s => ih hit s hdesc.of_cons
      (fun y hy => hle y (mem_cons_of_mem item hy)) fun _ y hy => ?_
    -- The other items are before the start.
    exact ((rel_of_pairwise_cons hdesc hy).trans_le (hle item mem_cons_self)).ne

mutual

theorem visits_descend : ∀ (n : Node β) (hit : Bool) (s : σ), OrderedList.Sorted key n.toList →
    (hit = true → ∀ y ∈ n.toList, key y ≠ key start) →
    Visits iter (OrderedList.descendLessOrEqual key (key start) n.toList) s
      (n.descend key (some start) none true iter hit s)
  | .leaf items, hit, s, h, hhit => by
    rw [Node.toList] at h hhit ⊢
    have hcount : descendCount key (some start) items = _ := (find_spec h).2
    rw [Node.descend, hcount, take_filter_le h]
    refine visits_descendItems _ hit s ?_ ?_ ?_
    · exact pairwise_reverse.mpr (h.filter _)
    · intro y hy
      simpa using (mem_filter.mp (mem_reverse.mp hy)).2
    · intro htrue y hy
      exact hhit htrue y (mem_filter.mp (mem_reverse.mp hy)).1
  | .inner children, hit, s, h, hhit => by
    have hitems : OrderedList.Sorted key children.items := h.sublist children.items_sublist
    have hcount : descendCount key (some start) children.items = _ := (find_spec hitems).2
    rw [Node.descend, hcount]
    exact visits_children_descend children hit s h hhit

theorem visits_children_descend : ∀ (children : Children β) (hit : Bool) (s : σ),
    OrderedList.Sorted key children.toList →
    (hit = true → ∀ y ∈ children.toList, key y ≠ key start) →
    Visits iter (OrderedList.descendLessOrEqual key (key start) children.toList) s
      (children.descend key (some start) none true iter
        (children.items.filter fun y => key y ≤ key start).length hit s)
  | .first child, hit, s, h, hhit => visits_descend child hit s h hhit
  | .snoc before item child, hit, s, h, hhit => by
    obtain ⟨hbefore, hchild, hlt, hgt⟩ := sorted_snoc h
    rw [Children.descend, Children.items, Children.toList, filter_append, length_append,
      OrderedList.descendLessOrEqual, filter_append, reverse_append]
    by_cases hitem : key item ≤ key start
    · have hall : before.items.filter (fun y => key y ≤ key start) = before.items :=
        filter_eq_self.mpr fun y hy => decide_eq_true
          ((hlt y (before.items_sublist.subset hy)).le.trans hitem)
      have hone : [item].filter (fun y => key y ≤ key start) = [item] :=
        filter_cons_of_pos (decide_eq_true hitem)
      have hkeep : ((item :: child.toList).filter fun y => key y ≤ key start).reverse =
          OrderedList.descendLessOrEqual key (key start) child.toList ++ [item] := by
        rw [filter_cons_of_pos (by simpa using hitem), reverse_cons]
        rfl
      have hmem : ∀ y, y = item ∨ y ∈ child.toList ∨ y ∈ before.toList →
          y ∈ (Children.snoc before item child).toList := by
        intro y hy
        rw [Children.toList, mem_append, mem_cons]
        tauto
      have hbelow := visits_children_descend before
      rw [hall] at hbelow
      rw [hall, hone, hkeep, if_neg (by simp)]
      refine (visits_descendItem hitem (fun htrue => hhit htrue item (hmem item (Or.inl rfl)))
        (visits_descend child hit s hchild fun htrue y hy =>
          hhit htrue y (hmem y (Or.inr (Or.inl hy))))).next fun hit s => ?_
      exact hbelow hit s hbefore fun _ y hy => ((hlt y hy).trans_le hitem).ne
    · -- The item and what is after it are after the start.
      have hone : [item].filter (fun y => key y ≤ key start) = [] :=
        filter_cons_of_neg (by simpa using hitem)
      have hskip : (item :: child.toList).filter (fun y => key y ≤ key start) = [] := by
        refine filter_eq_nil_iff.mpr fun y hy => ?_
        rcases mem_cons.mp hy with rfl | hy
        · simpa using hitem
        · simpa using (not_le.mp hitem).trans (hgt y hy)
      rw [hone, hskip, reverse_nil, nil_append, length_nil, Nat.add_zero,
        if_pos (length_filter_le _ _)]
      exact visits_children_descend before hit s hbefore fun htrue y hy =>
        hhit htrue y (mem_append_left _ hy)

end

end

end Btree

structure BTree {α : Type u} {β : Type v} [LinearOrder α] (key : β → α) where
  root : Option (Btree.Node β)
  sorted : OrderedList.Sorted key (root.elim [] Btree.Node.toList)

namespace BTree

variable {α : Type u} {β : Type v} {σ : Type w} [LinearOrder α] {key : β → α}

def items (t : BTree key) : List β := t.root.elim [] Btree.Node.toList

def ascendGreaterOrEqual (t : BTree key) (pivot : β) (iterator : β → σ → σ × Bool) (s : σ) : σ :=
  match t.root with
  | none => s
  | some root => (root.ascend key (some pivot) none true iterator false s).state

def descendLessOrEqual (t : BTree key) (pivot : β) (iterator : β → σ → σ × Bool) (s : σ) : σ :=
  match t.root with
  | none => s
  | some root => (root.descend key (some pivot) none true iterator false s).state

theorem ascendGreaterOrEqual_eq (t : BTree key) (pivot : β) (iterator : β → σ → σ × Bool) (s : σ) :
    t.ascendGreaterOrEqual pivot iterator s =
      (Btree.visit iterator (OrderedList.ascendGreaterOrEqual key (key pivot) t.items) s).1 := by
  obtain ⟨root, hsorted⟩ := t
  cases root with
  | none => rfl
  | some root => exact (Btree.visits_ascend root false s hsorted).state

theorem descendLessOrEqual_eq (t : BTree key) (pivot : β) (iterator : β → σ → σ × Bool) (s : σ) :
    t.descendLessOrEqual pivot iterator s =
      (Btree.visit iterator (OrderedList.descendLessOrEqual key (key pivot) t.items) s).1 := by
  obtain ⟨root, hsorted⟩ := t
  cases root with
  | none => rfl
  | some root => exact (Btree.visits_descend root false s hsorted (by simp)).state

end BTree

end TinyKV
