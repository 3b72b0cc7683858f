import Mathlib.Data.List.Induction
import Mathlib.Data.List.Pairwise
import Mathlib.Data.List.Sort
import Mathlib.Order.Antisymmetrization
import Mathlib.Order.Lattice
import Mathlib.Tactic.Tauto

/-!
# Lists in the order of a key

A finite ordered collection is the list of its items, strictly ascending in their keys (`Sorted`).
-/

namespace TinyKV.OrderedList

open List

universe u v

variable {α : Type u} {β : Type v} [LinearOrder α] {key : β → α} {l l' : List β} {x y : β} {k : α}

def Sorted (key : β → α) (l : List β) : Prop := l.Pairwise fun x y => key x < key y

/-- The list with an item, in place of the one with the same key if there is one. -/
def replaceOrInsert (key : β → α) (x : β) (l : List β) : List β :=
  l.filter (fun y => key y < key x) ++ x :: l.filter (fun y => key x < key y)

def delete (key : β → α) (k : α) (l : List β) : List β := l.filter fun y => key y ≠ k

def lookup (key : β → α) (k : α) (l : List β) : Option β := l.find? fun y => key y = k

def ascendGreaterOrEqual (key : β → α) (k : α) (l : List β) : List β := l.filter fun y => k ≤ key y

/-- The items up to the key, in descending order. -/
def descendLessOrEqual (key : β → α) (k : α) (l : List β) : List β :=
  (l.filter fun y => key y ≤ k).reverse

def rank (key : β → α) (k : α) (l : List β) : ℕ := (l.filter fun y => key y < k).length

@[simp]
theorem mem_replaceOrInsert : y ∈ replaceOrInsert key x l ↔ y = x ∨ y ∈ l ∧ key y ≠ key x := by
  simp only [replaceOrInsert, mem_append, mem_filter, mem_cons, decide_eq_true_eq,
    ne_iff_lt_or_gt]
  tauto

@[simp]
theorem mem_delete : y ∈ delete key k l ↔ y ∈ l ∧ key y ≠ k := by
  simp [delete]

@[simp]
theorem mem_ascendGreaterOrEqual : y ∈ ascendGreaterOrEqual key k l ↔ y ∈ l ∧ k ≤ key y := by
  simp [ascendGreaterOrEqual]

theorem sorted_nil : Sorted key ([] : List β) := List.Pairwise.nil

theorem Sorted.replaceOrInsert (h : Sorted key l) : Sorted key (replaceOrInsert key x l) := by
  refine pairwise_append.mpr ⟨h.filter _, pairwise_cons.mpr ⟨?_, h.filter _⟩, ?_⟩
  · intro y hy
    exact of_decide_eq_true (mem_filter.mp hy).2
  · intro y hy z hz
    have hyx : key y < key x := of_decide_eq_true (mem_filter.mp hy).2
    rcases mem_cons.mp hz with rfl | hz
    · exact hyx
    · exact hyx.trans (of_decide_eq_true (mem_filter.mp hz).2)

theorem Sorted.delete (h : Sorted key l) : Sorted key (delete key k l) := h.filter _

theorem Sorted.ascendGreaterOrEqual (h : Sorted key l) :
    Sorted key (ascendGreaterOrEqual key k l) := h.filter _

theorem lookup_eq_none : lookup key k l = none ↔ ∀ x ∈ l, key x ≠ k := by
  simp [lookup]

theorem Sorted.eq_of_key_eq (h : Sorted key l) (hx : x ∈ l) (hy : y ∈ l) (hkey : key x = key y) :
    x = y := by
  have hne : l.Pairwise fun x y => key x ≠ key y := h.imp fun hlt => hlt.ne
  have : Std.Symm fun x y : β => key x ≠ key y := ⟨fun _ _ => Ne.symm⟩
  by_contra hxy
  exact hne.forall hx hy hxy hkey

theorem Sorted.lookup_eq_some (h : Sorted key l) : lookup key k l = some x ↔ x ∈ l ∧ key x = k := by
  constructor
  · intro hx
    exact ⟨mem_of_find?_eq_some hx, by simpa using find?_some hx⟩
  · rintro ⟨hx, rfl⟩
    cases hy : lookup key (key x) l with
    | none => exact absurd rfl (lookup_eq_none.mp hy x hx)
    | some y =>
      have hkey : key y = key x := by simpa using find?_some hy
      rw [h.eq_of_key_eq (mem_of_find?_eq_some hy) hx hkey]

theorem Sorted.nodup (h : Sorted key l) : l.Nodup :=
  h.imp fun hlt heq => hlt.ne (by rw [heq])

theorem Sorted.ext (h : Sorted key l) (h' : Sorted key l') (hmem : ∀ x, x ∈ l ↔ x ∈ l') :
    l = l' := by
  have hperm : l.Perm l' := (perm_ext_iff_of_nodup h.nodup h'.nodup).mpr hmem
  exact hperm.eq_of_pairwise (fun x y _ _ hxy hyx => absurd hxy (lt_asymm hyx)) h h'

theorem mem_foldl_replaceOrInsert {items : List β} :
    x ∈ items.foldl (fun l y => OrderedList.replaceOrInsert key y l) [] ↔
      ∃ before after, items = before ++ x :: after ∧ ∀ y ∈ after, key y ≠ key x := by
  induction items using List.reverseRecOn with
  | nil => simp
  | append_singleton items z ih =>
    rw [foldl_append, foldl_cons, foldl_nil, mem_replaceOrInsert, ih]
    constructor
    · rintro (rfl | ⟨⟨before, after, rfl, hafter⟩, hne⟩)
      · exact ⟨items, [], rfl, by simp⟩
      · refine ⟨before, after ++ [z], by simp, fun y hy => ?_⟩
        rcases mem_append.mp hy with hy | hy
        · exact hafter y hy
        · rw [mem_singleton.mp hy]
          exact hne.symm
    · rintro ⟨before, after, heq, hafter⟩
      rcases eq_nil_or_concat after with rfl | ⟨after, y, rfl⟩
      · exact Or.inl (append_inj_right' heq rfl |> singleton_inj.mp).symm
      · rw [concat_eq_append] at heq hafter
        rw [← cons_append, ← append_assoc] at heq
        obtain ⟨rfl, hz⟩ := append_inj' heq rfl
        obtain rfl := singleton_inj.mp hz
        exact Or.inr ⟨⟨before, after, rfl, fun y hy => hafter y (mem_append_left _ hy)⟩,
          (hafter z (by simp)).symm⟩

section

variable (h : Sorted key l)
include h

theorem Sorted.of_ascendGreaterOrEqual_eq_cons {xs : List β}
    (heq : OrderedList.ascendGreaterOrEqual key k l = x :: xs) :
    x ∈ l ∧ k ≤ key x ∧ ∀ y ∈ l, k ≤ key y → key x ≤ key y := by
  have hx : x ∈ OrderedList.ascendGreaterOrEqual key k l := by simp [heq]
  obtain ⟨hmem, hle⟩ := mem_ascendGreaterOrEqual.mp hx
  refine ⟨hmem, hle, fun y hy hky => ?_⟩
  have hy' : y ∈ x :: xs := heq ▸ mem_ascendGreaterOrEqual.mpr ⟨hy, hky⟩
  have hsorted : Sorted key (x :: xs) := heq ▸ h.ascendGreaterOrEqual
  rcases mem_cons.mp hy' with rfl | hy'
  · exact le_rfl
  · exact (rel_of_pairwise_cons hsorted hy').le

theorem Sorted.ascendGreaterOrEqual_eq_cons (hx : x ∈ l) (hlt : key x < k)
    (hgap : ∀ y ∈ l, key x < key y → k ≤ key y) :
    OrderedList.ascendGreaterOrEqual key (key x) l =
      x :: OrderedList.ascendGreaterOrEqual key k l := by
  refine h.ascendGreaterOrEqual.ext
    (pairwise_cons.mpr ⟨fun y hy => ?_, h.ascendGreaterOrEqual⟩) fun y => ?_
  · exact hlt.trans_le (mem_ascendGreaterOrEqual.mp hy).2
  · rw [mem_cons, mem_ascendGreaterOrEqual, mem_ascendGreaterOrEqual]
    constructor
    · rintro ⟨hy, hle⟩
      rcases hle.eq_or_lt with heq | hlt'
      · exact Or.inl (h.eq_of_key_eq hy hx heq.symm)
      · exact Or.inr ⟨hy, hgap y hy hlt'⟩
    · rintro (rfl | ⟨hy, hle⟩)
      · exact ⟨hx, le_rfl⟩
      · exact ⟨hy, hlt.le.trans hle⟩

theorem Sorted.getLast?_eq_some : l.getLast? = some x ↔ x ∈ l ∧ ∀ y ∈ l, key y ≤ key x := by
  rw [getLast?_eq_some_iff]
  constructor
  · rintro ⟨ys, rfl⟩
    refine ⟨by simp, fun y hy => ?_⟩
    rcases mem_append.mp hy with hy | hy
    · exact ((pairwise_append.mp h).2.2 y hy x (by simp)).le
    · rw [mem_singleton.mp hy]
  · rintro ⟨hx, hmax⟩
    obtain ⟨ys, zs, rfl⟩ := append_of_mem hx
    -- Nothing comes after the item.
    cases zs with
    | nil => exact ⟨ys, rfl⟩
    | cons z zs =>
      have hlt := rel_of_pairwise_cons (pairwise_append.mp h).2.1 mem_cons_self
      exact absurd (hmax z (by simp)) (not_le.mpr hlt)

theorem Sorted.head?_descendLessOrEqual :
    (descendLessOrEqual key k l).head? = some x ↔
      x ∈ l ∧ key x ≤ k ∧ ∀ y ∈ l, key y ≤ k → key y ≤ key x := by
  have hsorted : Sorted key (l.filter fun y => key y ≤ k) := h.filter _
  rw [descendLessOrEqual, head?_reverse, hsorted.getLast?_eq_some]
  simp only [mem_filter, decide_eq_true_eq, and_imp, and_assoc]

theorem Sorted.find?_descendLessOrEqual :
    (descendLessOrEqual key k l).find? (fun y => key y ≠ k) = some x ↔
      x ∈ l ∧ key x < k ∧ ∀ y ∈ l, key y < k → key y ≤ key x := by
  have hsorted : Sorted key ((l.filter fun y => key y ≤ k).filter fun y => key y ≠ k) :=
    (h.filter _).filter _
  rw [descendLessOrEqual, ← head?_filter, filter_reverse, head?_reverse,
    hsorted.getLast?_eq_some]
  simp only [mem_filter, decide_eq_true_eq, and_imp, and_assoc, lt_iff_le_and_ne]

theorem Sorted.takeWhile_eq_filter {p : β → Bool}
    (hp : ∀ x ∈ l, ∀ y ∈ l, key x < key y → p y → p x) : l.takeWhile p = l.filter p := by
  induction l with
  | nil => rfl
  | cons x l ih =>
    have ih := ih h.of_cons fun y hy z hz => hp y (mem_cons_of_mem x hy) z
      (mem_cons_of_mem x hz)
    by_cases hx : p x
    · rw [takeWhile_cons_of_pos hx, filter_cons_of_pos hx, ih]
    · rw [takeWhile_cons_of_neg hx, filter_cons_of_neg hx, eq_comm,
        filter_eq_nil_iff]
      intro y hy hpy
      exact hx (hp x mem_cons_self y (mem_cons_of_mem x hy)
        (rel_of_pairwise_cons h hy) hpy)

theorem Sorted.lt_length_filter {p : β → Bool} (hp : ∀ x ∈ l, ∀ y ∈ l, key x < key y → p y → p x)
    {i : ℕ} (hy : l[i]? = some y) : i < (l.filter p).length ↔ p y = true := by
  induction l generalizing i with
  | nil => simp at hy
  | cons x l ih =>
    by_cases hx : p x
    · rw [filter_cons_of_pos hx, length_cons]
      cases i with
      | zero =>
        obtain rfl : x = y := by simpa using hy
        simp [hx]
      | succ i =>
        rw [Nat.succ_lt_succ_iff]
        exact ih h.of_cons (fun a ha b hb => hp a (mem_cons_of_mem x ha) b
          (mem_cons_of_mem x hb)) (by simpa using hy)
    · -- The property ends before the first item.
      have hnone : ∀ z ∈ x :: l, ¬ p z = true := by
        intro z hz hpz
        rcases mem_cons.mp hz with rfl | hzl
        · exact hx hpz
        · exact hx (hp x mem_cons_self z hz (rel_of_pairwise_cons h hzl) hpz)
      rw [filter_eq_nil_iff.mpr hnone, length_nil]
      simpa using hnone y (mem_of_getElem? hy)

theorem Sorted.lt_rank_iff {i : ℕ} (hy : l[i]? = some y) : i < rank key k l ↔ key y < k := by
  rw [rank, h.lt_length_filter (fun a _ b _ hab hb => ?_) hy, decide_eq_true_eq]
  rw [decide_eq_true_eq] at hb ⊢
  exact hab.trans hb

end

theorem rank_le_length : rank key k l ≤ l.length := length_filter_le _ _

theorem forall₂_antisymmRel_of_perm {γ : Type u} [Preorder γ] {xs ys : List γ}
    (hperm : xs.Perm ys) (hx : xs.Pairwise (· ≤ ·)) (hy : ys.Pairwise (· ≤ ·)) :
    List.Forall₂ (AntisymmRel (· ≤ ·)) xs ys := by
  -- The classes of equivalent items are in a partial order, where the arrangement is unique.
  have hmap : xs.map (toAntisymmetrization (· ≤ ·)) = ys.map (toAntisymmetrization (· ≤ ·)) := by
    apply List.Perm.eq_of_pairwise' (r := (· ≤ ·))
    · exact pairwise_map.mpr hx
    · exact pairwise_map.mpr hy
    · exact hperm.map _
  rw [← forall₂_eq_eq_eq, forall₂_map_left_iff, forall₂_map_right_iff] at hmap
  exact hmap.imp fun _ _ h => Quotient.exact h

end TinyKV.OrderedList
