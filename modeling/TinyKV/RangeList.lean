import Mathlib.Order.WithBot
import TinyKV.OrderedList

/-!
# Lists of disjoint ranges

A range goes from a first key up to an end that does not belong to it and may be infinite.
-/

namespace TinyKV.RangeList

open List

universe u v

variable {α : Type u} {β : Type v} [LinearOrder α] {lo : β → α} {hi : β → WithTop α}
  {l l' : List β} {x y : β} {k : α}

/-- The key is in the range of the item. -/
def Covers (lo : β → α) (hi : β → WithTop α) (x : β) (k : α) : Prop :=
  lo x ≤ k ∧ (k : WithTop α) < hi x

instance : Decidable (Covers lo hi x k) := inferInstanceAs (Decidable (_ ∧ _))

def Meets (lo : β → α) (hi : β → WithTop α) (x y : β) : Prop :=
  ∃ k, Covers lo hi x k ∧ Covers lo hi y k

/-- The ranges are disjoint, none is empty, and they are in ascending order. -/
structure Apart (lo : β → α) (hi : β → WithTop α) (l : List β) : Prop where
  sorted : OrderedList.Sorted lo l
  nonempty : ∀ x ∈ l, (lo x : WithTop α) < hi x
  eq_of_meets : ∀ x ∈ l, ∀ y ∈ l, Meets lo hi x y → x = y

def find (lo : β → α) (hi : β → WithTop α) (k : α) (l : List β) : Option β :=
  (OrderedList.descendLessOrEqual lo k l).head?.filter fun x => Covers lo hi x k

def overlaps (lo : β → α) (hi : β → WithTop α) (x : β) (l : List β) : List β :=
  (OrderedList.ascendGreaterOrEqual lo ((find lo hi (lo x) l).elim (lo x) lo) l).takeWhile
    fun y => (lo y : WithTop α) < hi x

theorem meets_iff (hx : (lo x : WithTop α) < hi x) (hy : (lo y : WithTop α) < hi y) :
    Meets lo hi x y ↔ (lo x : WithTop α) < hi y ∧ (lo y : WithTop α) < hi x := by
  constructor
  · rintro ⟨k, ⟨hxk, hkx⟩, hyk, hky⟩
    exact ⟨(WithTop.coe_le_coe.mpr hxk).trans_lt hky, (WithTop.coe_le_coe.mpr hyk).trans_lt hkx⟩
  · rintro ⟨hxy, hyx⟩
    rcases le_total (lo x) (lo y) with hle | hle
    · exact ⟨lo y, ⟨hle, hyx⟩, le_rfl, hy⟩
    · exact ⟨lo x, ⟨le_rfl, hx⟩, hle, hxy⟩

theorem Meets.symm (h : Meets lo hi x y) : Meets lo hi y x :=
  let ⟨k, hx, hy⟩ := h
  ⟨k, hy, hx⟩

theorem apart_nil : Apart lo hi ([] : List β) := ⟨OrderedList.sorted_nil, by simp, by simp⟩

theorem apart_of_pairwise (hne : ∀ x ∈ l, (lo x : WithTop α) < hi x)
    (h : l.Pairwise fun x y => hi x ≤ lo y) : Apart lo hi l := by
  have hlt : l.Pairwise fun x y => lo x < lo y := by
    refine h.imp_of_mem fun hx _ hxy => ?_
    exact WithTop.coe_lt_coe.mp ((hne _ hx).trans_le hxy)
  have hfree : l.Pairwise fun x y => ¬ Meets lo hi x y := by
    refine h.imp ?_
    rintro x y hxy ⟨k, hx, hy⟩
    exact absurd (hx.2.trans_le hxy) (not_lt.mpr (WithTop.coe_le_coe.mpr hy.1))
  refine ⟨hlt, hne, fun x hx y hy hmeets => ?_⟩
  have : Std.Symm fun x y : β => ¬ Meets lo hi x y := ⟨fun _ _ hxy hyx => hxy hyx.symm⟩
  by_contra hxy
  exact hfree.forall hx hy hxy hmeets

theorem Apart.subset (h : Apart lo hi l) (hsorted : OrderedList.Sorted lo l')
    (hsub : ∀ x ∈ l', x ∈ l) : Apart lo hi l' :=
  ⟨hsorted, fun x hx => h.nonempty x (hsub x hx),
    fun x hx y hy => h.eq_of_meets x (hsub x hx) y (hsub y hy)⟩

theorem Apart.le_of_lt (h : Apart lo hi l) (hx : x ∈ l) (hy : y ∈ l) (hlt : lo x < lo y) :
    hi x ≤ lo y := by
  by_contra hlt'
  have hmeets : Meets lo hi x y := (meets_iff (h.nonempty x hx) (h.nonempty y hy)).mpr
    ⟨(WithTop.coe_lt_coe.mpr hlt).trans (h.nonempty y hy), not_le.mp hlt'⟩
  exact hlt.ne (by rw [h.eq_of_meets x hx y hy hmeets])

theorem Apart.replaceOrInsert (h : Apart lo hi l) (hx : (lo x : WithTop α) < hi x)
    (hfree : ∀ y ∈ l, Meets lo hi x y → x = y) :
    Apart lo hi (OrderedList.replaceOrInsert lo x l) := by
  refine ⟨h.sorted.replaceOrInsert, fun y hy => ?_, fun y hy z hz hmeets => ?_⟩
  · rcases OrderedList.mem_replaceOrInsert.mp hy with rfl | ⟨hy, -⟩
    · exact hx
    · exact h.nonempty y hy
  · rcases OrderedList.mem_replaceOrInsert.mp hy with rfl | ⟨hyl, -⟩
    · rcases OrderedList.mem_replaceOrInsert.mp hz with rfl | ⟨hzl, -⟩
      · rfl
      · exact hfree z hzl hmeets
    · rcases OrderedList.mem_replaceOrInsert.mp hz with rfl | ⟨hzl, -⟩
      · exact (hfree y hyl hmeets.symm).symm
      · exact h.eq_of_meets y hyl z hzl hmeets

theorem Apart.find_eq_some (h : Apart lo hi l) :
    find lo hi k l = some x ↔ x ∈ l ∧ Covers lo hi x k := by
  rw [find, Option.filter_eq_some_iff, h.sorted.head?_descendLessOrEqual, decide_eq_true_eq]
  constructor
  · rintro ⟨⟨hx, -, -⟩, hcovers⟩
    exact ⟨hx, hcovers⟩
  · rintro ⟨hx, hcovers⟩
    refine ⟨⟨hx, hcovers.1, fun y hy hyk => ?_⟩, hcovers⟩
    -- A later item would start within the range.
    by_contra hlt
    have hle := h.le_of_lt hx hy (not_le.mp hlt)
    exact absurd (hcovers.2.trans_le hle) (not_lt.mpr (WithTop.coe_le_coe.mpr hyk))

theorem Apart.find_eq_none (h : Apart lo hi l) :
    find lo hi k l = none ↔ ∀ x ∈ l, ¬ Covers lo hi x k := by
  rw [Option.eq_none_iff_forall_ne_some]
  constructor
  · intro hnone x hx hcovers
    exact hnone x (h.find_eq_some.mpr ⟨hx, hcovers⟩)
  · intro hnone x hx
    obtain ⟨hx, hcovers⟩ := h.find_eq_some.mp hx
    exact hnone x hx hcovers

theorem takeWhile_eq_overlaps {p : β → Bool} (hp : ∀ y, p y = true ↔ (lo y : WithTop α) < hi x) :
    (OrderedList.ascendGreaterOrEqual lo ((find lo hi (lo x) l).elim (lo x) lo) l).takeWhile p =
      overlaps lo hi x l := by
  rw [overlaps]
  congr 1
  funext y
  rw [Bool.eq_iff_iff, hp, decide_eq_true_eq]

theorem Apart.start_le_iff (h : Apart lo hi l) (hy : y ∈ l) :
    (find lo hi k l).elim k lo ≤ lo y ↔ k ≤ lo y ∨ Covers lo hi y k := by
  cases hfind : find lo hi k l with
  | none =>
    have hnone := h.find_eq_none.mp hfind y hy
    simp [hnone]
  | some x =>
    obtain ⟨hx, hcovers⟩ := h.find_eq_some.mp hfind
    simp only [Option.elim_some]
    constructor
    · intro hle
      rcases hle.eq_or_lt with heq | hlt
      · exact Or.inr (h.sorted.eq_of_key_eq hx hy heq ▸ hcovers)
      · have hlt' := hcovers.2.trans_le (h.le_of_lt hx hy hlt)
        exact Or.inl (WithTop.coe_lt_coe.mp hlt').le
    · rintro (hle | hcovers')
      · exact hcovers.1.trans hle
      · rw [h.eq_of_meets x hx y hy ⟨k, hcovers, hcovers'⟩]

theorem Apart.mem_overlaps (h : Apart lo hi l) (hx : (lo x : WithTop α) < hi x) :
    y ∈ overlaps lo hi x l ↔ y ∈ l ∧ Meets lo hi x y := by
  have htake := h.sorted.ascendGreaterOrEqual (k := (find lo hi (lo x) l).elim (lo x) lo)
    |>.takeWhile_eq_filter (p := fun y => (lo y : WithTop α) < hi x) fun y _ z _ hlt hz => by
      simp only [decide_eq_true_eq] at hz ⊢
      exact (WithTop.coe_lt_coe.mpr hlt).trans hz
  rw [overlaps, htake, mem_filter, OrderedList.mem_ascendGreaterOrEqual, decide_eq_true_eq]
  constructor
  · rintro ⟨⟨hy, hle⟩, hlt⟩
    refine ⟨hy, (meets_iff hx (h.nonempty y hy)).mpr ⟨?_, hlt⟩⟩
    rcases (h.start_le_iff hy).mp hle with hle | hcovers
    · exact (WithTop.coe_le_coe.mpr hle).trans_lt (h.nonempty y hy)
    · exact hcovers.2
  · rintro ⟨hy, hmeets⟩
    obtain ⟨hxy, hyx⟩ := (meets_iff hx (h.nonempty y hy)).mp hmeets
    refine ⟨⟨hy, (h.start_le_iff hy).mpr ?_⟩, hyx⟩
    rcases le_total (lo x) (lo y) with hle | hle
    · exact Or.inl hle
    · exact Or.inr ⟨hle, hxy⟩

theorem sorted_overlaps (h : OrderedList.Sorted lo l) :
    OrderedList.Sorted lo (overlaps lo hi x l) :=
  h.ascendGreaterOrEqual.sublist (takeWhile_sublist _)

def Tiles (lo : β → α) (hi : β → WithTop α) : WithTop α → List β → WithTop α → Prop
  | a, [], b => a = b
  | a, x :: l, b => (lo x : WithTop α) = a ∧ Tiles lo hi (hi x) l b

variable {a b : WithTop α}

variable (h : Tiles lo hi a l b) (hne : ∀ x ∈ l, (lo x : WithTop α) < hi x)
include h hne

theorem Tiles.le : a ≤ b := by
  induction l generalizing a with
  | nil => exact h.le
  | cons x l ih =>
    have hx : (lo x : WithTop α) < hi x := hne x mem_cons_self
    calc a = lo x := h.1.symm
      _ ≤ hi x := hx.le
      _ ≤ b := ih h.2 fun y hy => hne y (mem_cons_of_mem x hy)

theorem Tiles.exists_covers : (∃ x ∈ l, Covers lo hi x k) ↔ a ≤ k ∧ (k : WithTop α) < b := by
  induction l generalizing a with
  | nil =>
    have hab : a = b := h
    rw [hab]
    constructor
    · rintro ⟨x, hx, -⟩
      cases hx
    · intro hk
      exact absurd hk.2 (not_lt.mpr hk.1)
  | cons x l ih =>
    have hne' : ∀ y ∈ l, (lo y : WithTop α) < hi y := fun y hy => hne y (mem_cons_of_mem x hy)
    have hx := hne x mem_cons_self
    have hle := h.2.le hne'
    rw [exists_mem_cons_iff, ih h.2 hne', ← h.1, Covers, WithTop.coe_le_coe]
    constructor
    · rintro (⟨hlo, hhi⟩ | ⟨hlo, hhi⟩)
      · exact ⟨hlo, hhi.trans_le hle⟩
      · exact ⟨WithTop.coe_le_coe.mp (hx.le.trans hlo), hhi⟩
    · rintro ⟨hlo, hhi⟩
      -- The key is in the first range, or in those after it.
      rcases lt_or_ge (k : WithTop α) (hi x) with hlt | hge
      · exact Or.inl ⟨hlo, hlt⟩
      · exact Or.inr ⟨hge, hhi⟩

theorem Tiles.pairwise_not_meets : l.Pairwise fun x y => ¬ Meets lo hi x y := by
  induction l generalizing a with
  | nil => exact List.Pairwise.nil
  | cons x l ih =>
    have hne' : ∀ y ∈ l, (lo y : WithTop α) < hi y := fun y hy => hne y (mem_cons_of_mem x hy)
    refine pairwise_cons.mpr ⟨?_, ih h.2 hne'⟩
    rintro y hy ⟨k, hkx, hky⟩
    have hle := ((h.2.exists_covers hne').mp ⟨y, hy, hky⟩).1
    exact absurd hkx.2 (not_lt.mpr hle)

end TinyKV.RangeList
